import Univdreams.Arch.EvmInsn

/-!
# Basic blocks and tracked stacks

The first half of the control-flow recovery of EVM bytecode (`src/translate/decompile/evm_cfg.rs`):
the splitting into basic blocks, the stack of tracked items that the walk over a function keeps, and
the loops whose number of rounds a concrete run finds out.

Stacks are lists with the top first; the source keeps vectors with the top last. A map of the source
from blocks or offsets is a list of pairs here, a set is a list. A function of the source that can
panic returns an `Option`, or a `Run` where it can also give up; `checks` says whether the
compiled program checks its arithmetic.
-/

namespace Univdreams.Decompile

open Evm

/-! ## Blocks -/

/-- `Term`: how a basic block ends. -/
inductive Term where
  | jump
  | jumpI
  | halt
  /-- The block runs into the next one, or off the end of a code segment. -/
  | fall
deriving DecidableEq, Repr

/-- `Block`: a basic block. -/
structure Block where
  /-- The offset of the first instruction. -/
  start : ℕ
  /-- `end`: the offset behind the last instruction. -/
  stop : ℕ
  /-- The index of the first instruction. -/
  first : ℕ
  /-- The index behind the last instruction. -/
  last : ℕ
  /-- How the block ends. -/
  term : Term
deriving DecidableEq, Repr

/-- The end of a block that an instruction makes, if it makes one. -/
def termOf (ins : DecodedInsn) : Option Term :=
  match classify ins with
  | .jump => some .jump
  | .jumpI => some .jumpI
  | .halt => some .halt
  | .jumpDest | .other => none

/-- A block ends in front of the end, a jump destination, or an instruction that does not follow
directly. -/
def isBoundary (ins : DecodedInsn) : List DecodedInsn → Bool
  | [] => true
  | n :: _ => n.opcode = jumpdest ∨ n.addr ≠ ins.nextAddr

/-- The loop of `split_blocks` from the instruction `i` on. The open block starts at `first`. -/
def splitLoop : ℕ → Option (ℕ × ℕ) → List DecodedInsn → List Block
  | _, _, [] => []
  | i, opened, ins :: rest =>
    let here := opened.getD (i, ins.addr)
    if (termOf ins).isSome ∨ isBoundary ins rest then
      ⟨here.2, ins.nextAddr, here.1, i + 1, (termOf ins).getD .fall⟩ :: splitLoop (i + 1) none rest
    else splitLoop (i + 1) (some here) rest

variable (dests : ℕ → Bool) (checks : Bool) (blocks : List Block) (blk : Block)
  (insns : List DecodedInsn) (rets : RetCandidates)

/-- `split_blocks`. -/
def splitBlocks : List Block := splitLoop 0 none insns

/-- `by_start`: the block that starts at an offset, the last of them if there are several. -/
def byStart (v : ℕ) : Option ℕ :=
  (blocks.zipIdx.reverse.find? fun p => p.1.start = v).map Prod.snd

/-- The instructions with the indices from `a` to `b`, where a slice of the source panics
outside. -/
def insnSlice (a b : ℕ) : Option (List DecodedInsn) :=
  if a ≤ b ∧ b ≤ insns.length then some ((insns.drop a).take (b - a)) else none

/-- The instructions of a block. -/
def Block.code : Option (List DecodedInsn) :=
  insnSlice insns blk.first blk.last

/-- The index behind the instructions of a block that do not jump. -/
def Block.bodyEnd : ℕ :=
  match blk.term with
  | .jump | .jumpI => blk.last - 1
  | .halt | .fall => blk.last

/-- The instructions of a block in front of its jump. -/
def Block.body : Option (List DecodedInsn) :=
  insnSlice insns blk.first blk.bodyEnd

/-- `jumpdests`: whether a jump destination is at an offset. -/
def isJumpdest (v : ℕ) : Bool :=
  insns.any fun i => i.opcode = jumpdest ∧ i.addr = v

/-- A basic block: only its last instruction can end it, and only its first be a jump
destination. -/
def IsBasic (code : List DecodedInsn) : Prop :=
  (∀ ins ∈ code.dropLast, termOf ins = none) ∧ ∀ ins ∈ code.tail, ins.opcode ≠ jumpdest

/-- The loop with the instructions `pre` in closed blocks and `cur` in the open one. -/
theorem splitLoop_spec (i : ℕ) (opened : Option (ℕ × ℕ)) (insns rest pre cur : List DecodedInsn)
    (hinsns : insns = pre ++ cur ++ rest) (hi : i = pre.length + cur.length)
    (hopened : ∀ a, (opened.getD (i, a)).1 = pre.length)
    (hcur : ∀ ins ∈ cur, termOf ins = none) (hrest : cur ≠ [] → rest ≠ [])
    (htail : ∀ ins ∈ (cur ++ rest.take 1).tail, ins.opcode ≠ jumpdest) :
    ∃ codes, (splitLoop i opened rest).mapM (Block.code · insns) = some codes ∧
      codes.flatten = cur ++ rest ∧ ∀ code ∈ codes, IsBasic code := by
  induction rest generalizing i opened pre cur with
  | nil => exact ⟨[], by simp [splitLoop, not_imp_not.1 hrest]⟩
  | cons ins rest ih =>
    rw [splitLoop]
    split_ifs with h
    · -- The block is closed behind `ins`.
      obtain ⟨codes, hmap, hflat, hbasic⟩ := ih (i + 1) none (pre ++ cur ++ [ins]) []
        (by simp [hinsns]) (by simp [hi, Nat.add_assoc]) (by simp [hi, Nat.add_assoc]) (by simp)
        (by simp) (by cases rest <;> simp)
      have hcode : insnSlice insns pre.length (i + 1) = some (cur ++ [ins]) := by
        simp [insnSlice, hinsns, hi, Nat.add_assoc, List.take_append]
      refine ⟨(cur ++ [ins]) :: codes, ?_, by simp [hflat], ?_⟩
      · rw [List.mapM_cons, hmap, Block.code, hopened, hcode]
        rfl
      · exact List.forall_mem_cons.2 ⟨⟨by simpa using hcur, htail⟩, hbasic⟩
    · obtain ⟨hterm, hbound⟩ := not_or.1 h
      cases rest with
      | nil => exact absurd rfl hbound
      | cons n rest =>
        rw [List.append_cons]
        refine ih _ _ pre _ (by simp [hinsns]) (by simp [hi, Nat.add_assoc])
          (fun _ => hopened ins.addr) (by simp_all [or_imp]) (by simp) ?_
        rw [List.tail_append_of_ne_nil (by simp), List.forall_mem_append]
        exact ⟨htail, by simp_all [isBoundary]⟩

/-- `split_blocks` cuts the instructions into basic blocks: the code of every block can be sliced,
and the codes in order are the instructions. -/
theorem splitBlocks_basic :
    ∃ codes, (splitBlocks insns).mapM (Block.code · insns) = some codes ∧ codes.flatten = insns ∧
      ∀ code ∈ codes, IsBasic code :=
  splitLoop_spec 0 none insns insns [] [] rfl rfl (by simp) (by simp) (by simp)
    (by cases insns <;> simp)

/-! ## Tracked stacks -/

/-- `Tag`: what is known of a stack item. -/
inductive Tag where
  /-- A jump destination that was pushed in this frame. -/
  | const (v : ℕ)
  /-- A constant below `2^32` that is no jump destination. -/
  | num (v : ℕ)
  /-- The return address of the frame. -/
  | ret
  /-- An argument of the frame as it was passed in. -/
  | arg (k : ℕ)
  /-- The result of `PC`. -/
  | pc (v : ℕ)
deriving DecidableEq, Repr

/-- `Item`: a stack item, of which something may be known. -/
abbrev StackItem := Option Tag

/-- The top item, where an empty stack has none that is known, and the rest. -/
def popItem {α : Type} (stack : List (Option α)) : Option α × List (Option α) :=
  (stack.head?.join, stack.tail)

/-- The sum of a program counter and a small constant, where it is a jump destination. -/
def addTags (a b : StackItem) : StackItem :=
  match a, b with
  | some (.pc p), some (.num n) | some (.num n), some (.pc p) =>
    if dests (p + n) then some (.const (p + n)) else none
  | _, _ => none

/-- A jump destination under a mask that keeps it. -/
def andTags (a b : StackItem) : StackItem :=
  match a, b with
  | some (.const v), some (.num m) | some (.num m), some (.const v) =>
    if v &&& m = v then some (.const v) else none
  | _, _ => none

/-- What is known of a pushed value. -/
def pushTag (v : ℕ) : StackItem :=
  if dests v then some (.const v) else if v < 2 ^ 32 then some (.num v) else none

/-- `step_item_stack`: the tracked stack behind an instruction. -/
def stepItemStack (stack : List StackItem) (ins : DecodedInsn) : List StackItem :=
  let op := ins.opcode
  if op = 0x58 then some (.pc ins.addr) :: stack
  else if op = 0x01 then
    let a := popItem stack
    let b := popItem a.2
    addTags dests a.1 b.1 :: b.2
  else if 0x5f ≤ op ∧ op ≤ 0x7f then ins.pushValue.bind (pushTag dests) :: stack
  else if op = 0x16 then
    let a := popItem stack
    let b := popItem a.2
    andTags a.1 b.1 :: b.2
  else if 0x80 ≤ op ∧ op ≤ 0x8f then (stack[(op - 0x80).toNat]?).join :: stack
  else if 0x90 ≤ op ∧ op ≤ 0x9f then
    let n := (op - 0x90).toNat + 1
    if n < stack.length then exchange n stack
    else match stack with
      | [] => []
      | _ :: rest => none :: rest
  else List.replicate (opInfo op).pushes none ++ stack.drop (opInfo op).pops

/-! ## Counted loops -/

/-- `MAX_STACK`: the limit of the stack. -/
def maxStack : ℕ := 1024

/-- `MAX_LOOP_TRIPS`: the rounds for which a loop is run. -/
def maxLoopTrips : ℕ := maxStack + 1

/-- `MAX_LOOP_BLOCKS`: the blocks of a loop, at most. -/
def maxLoopBlocks : ℕ := 4

/-- `CountedLoop`: a loop whose effect on the stack is known. -/
structure CountedLoop where
  /-- The blocks of the loop. -/
  body : List ℕ
  /-- The block where the loop ends. -/
  exit : ℕ
  /-- The number of items the loop leaves, negative if it takes some. -/
  delta : ℤ
deriving DecidableEq, Repr

/-- `CountedLoops`. -/
structure CountedLoops where
  /-- The loops by the block that sets up their pointer. -/
  byInit : List (ℕ × CountedLoop) := []
  /-- The edges from a body to the exit of its loop. -/
  exits : List (ℕ × ℕ) := []
deriving DecidableEq, Repr

/-- `walks`: the walk may take the edge. -/
def CountedLoops.walks (loops : CountedLoops) (a b : ℕ) : Bool := (a, b) ∉ loops.exits

/-- `Concrete`: a concrete run in which values from outside are unknown. -/
structure Concrete where
  /-- The stack, top first. -/
  stack : List (Option ℕ)
  /-- The words of memory at known offsets. -/
  mem : List (ℕ × ℕ)
deriving DecidableEq, Repr

/-- `Concrete::new`: `MAX_STACK` unknown items and the given memory. -/
def Concrete.new (mem : List (ℕ × ℕ)) : Concrete := ⟨List.replicate maxStack none, mem⟩

namespace Concrete

variable (m : Concrete)

/-- `pop`: the top item; the run gives up on an empty stack. -/
def pop : Run Unit (Option ℕ × Concrete) :=
  match m.stack with
  | [] => fail ()
  | a :: rest => .ok (a, { m with stack := rest })

/-- Takes `n` items from the stack. -/
def popN (m : Concrete) : ℕ → Run Unit Concrete
  | 0 => .ok m
  | n + 1 => do
    let (_, m) ← m.pop
    m.popN n

/-- Puts an item on the stack. -/
def push (v : Option ℕ) : Concrete := { m with stack := v :: m.stack }

/-- The words of memory that a store at `a` does not touch. -/
def keepAway (a : ℕ) : List (ℕ × ℕ) :=
  m.mem.filter fun kv => 0x20 ≤ (kv.1 - a) + (a - kv.1)

/-- The store of a word. A strict run gives up where it could make a tracked word unknown. -/
def store (strict : Bool) (a v : Option ℕ) : Run Unit Concrete :=
  match a, v with
  | some a, some v =>
    if strict ∧ m.mem.any fun kv => kv.1 ≠ a ∧ (kv.1 - a) + (a - kv.1) < 0x20 then fail ()
    else .ok { m with mem := (a, v) :: m.keepAway a }
  | some a, none =>
    if strict ∧ m.mem.any fun kv => (kv.1 - a) + (a - kv.1) < 0x20 then fail ()
    else .ok { m with mem := m.keepAway a }
  | none, _ => if strict then fail () else .ok { m with mem := [] }

/-- The two-operand instructions that the run follows, on values below `2^64`. -/
def arith (op : UInt8) (a c : ℕ) : Option ℕ :=
  if op = 0x01 then if a + c < 2 ^ 64 then some (a + c) else none
  else if op = 0x03 then if c ≤ a then some (a - c) else none
  else if op = 0x10 then some (if a < c then 1 else 0)
  else if op = 0x11 then some (if c < a then 1 else 0)
  else some (if a = c then 1 else 0)

/-- The opcodes, other than a store of a word, that write memory or call out. -/
def writesMemory (op : UInt8) : Bool :=
  op ∈ [0x37, 0x39, 0x3c, 0x3e, 0x53, 0x5e] ∨ 0xf0 ≤ op

/-- `step`: the run behind an instruction that does not jump. -/
def step (checks : Bool) (m : Concrete) (ins : DecodedInsn) (strict : Bool) : Run Unit Concrete :=
  let op := ins.opcode
  if op = 0x5b then .ok m
  else if 0x5f ≤ op ∧ op ≤ 0x7f then .ok (m.push ins.pushValue)
  else if op = 0x51 then do
    let (a, m) ← m.pop
    .ok (m.push (a.bind fun a => m.mem.lookup a))
  else if op = 0x52 then do
    let (a, m) ← m.pop
    let (v, m) ← m.pop
    m.store strict a v
  else if op ∈ [0x01, 0x03, 0x10, 0x11, 0x14] then do
    let (a, m) ← m.pop
    let (c, m) ← m.pop
    .ok (m.push (a.bind fun a => c.bind fun c => arith op a c))
  else if op = 0x15 then do
    let (a, m) ← m.pop
    .ok (m.push (a.map fun a => if a = 0 then 1 else 0))
  else if 0x80 ≤ op ∧ op ≤ 0x8f then
    match m.stack[(op - 0x80).toNat]? with
    | none => fail ()
    | some v => .ok (m.push v)
  else if 0x90 ≤ op ∧ op ≤ 0x9f then
    -- The first operand of the exchange is `len - 1`, before the second one is checked.
    if m.stack = [] ∧ checks then .error .panic
    else if m.stack.length < (op - 0x90).toNat + 2 then fail ()
    else .ok { m with stack := exchange ((op - 0x90).toNat + 1) m.stack }
  else if strict ∧ writesMemory op then fail ()
  else do
    let m' := if writesMemory op then { m with mem := [] } else m
    let m' ← m'.popN (opInfo op).pops
    .ok { m' with stack := List.replicate (opInfo op).pushes none ++ m'.stack }

/-- The run over several instructions. -/
def steps (checks strict : Bool) (m : Concrete) (code : List DecodedInsn) : Run Unit Concrete :=
  code.foldlM (fun m ins => m.step checks ins strict) m

end Concrete

/-- The block after `blk` in a concrete run. -/
def Concrete.next (m : Concrete) : Run Unit (ℕ × Concrete) :=
  let known (o : Option ℕ) : Run Unit ℕ := match o with
    | none => fail ()
    | some v => .ok v
  match blk.term with
  | .fall => do
    let b ← known (byStart blocks blk.stop)
    .ok (b, m)
  | .jumpI => do
    let (t, m) ← m.pop
    let t ← known t
    let (c, m) ← m.pop
    let c ← known c
    let b ← known (if c = 0 then byStart blocks blk.stop else byStart blocks t)
    .ok (b, m)
  | .jump | .halt => do
    let (t, m) ← m.pop
    let t ← known t
    let b ← known (byStart blocks t)
    .ok (b, m)

/-- The rounds of `simulate_loop`. -/
def simulateRounds (checks : Bool) (blocks : List Block) (insns : List DecodedInsn)
    (header ptr : ℕ) : ℕ → Concrete → List ℕ → Bool → ℕ → Run Unit CountedLoop
  | 0, _, _, _, _ => fail ()
  | rounds + 1, m, body, looped, b =>
    if looped ∧ b ∉ body then .ok ⟨body, b, (m.stack.length : ℤ) - maxStack⟩
    else do
      let body := if looped ∨ b ∈ body then body else b :: body
      if ¬looped ∧ maxLoopBlocks < body.length then fail ()
      else do
        let blk ← orPanic blocks[b]?
        if blk.term = .halt then fail ()
        else do
          let code ← orPanic (blk.body insns)
          let m ← m.steps checks true code
          if (m.mem.lookup ptr).isNone then fail ()
          else do
            let (b, m) ← m.next blocks blk
            simulateRounds checks blocks insns header ptr rounds m body
              (looped || b == header) b

/-- `simulate_loop`: the loop that is entered at `header`, run with `start` in the word `ptr`. -/
def simulateLoop (header ptr start : ℕ) : Run Unit CountedLoop :=
  simulateRounds checks blocks insns header ptr (maxLoopTrips * maxLoopBlocks)
    (.new [(ptr, start)]) [] false header

/-- The counted loop that a block sets up, if it does. -/
def countedLoopAt (blk : Block) : Run Unit CountedLoop :=
  if blk.term ≠ .fall then fail ()
  else match byStart blocks blk.stop with
    | none => fail ()
    | some header => do
      let code ← orPanic (blk.code insns)
      match code.reverse with
      | store :: ptr :: _ =>
        match ptr.pushValue with
        | some ptr =>
          if store.opcode ≠ 0x52 then fail ()
          else do
            let m ← (Concrete.new []).steps checks false code
            match m.mem.lookup ptr with
            | none => fail ()
            | some start => simulateLoop checks blocks insns header ptr start
        | none => fail ()
      | _ => fail ()

/-- `CountedLoops::find`; `none` where the concrete run panics. -/
def CountedLoops.find : Option CountedLoops :=
  blocks.zipIdx.foldlM (fun out p =>
    match countedLoopAt checks blocks insns p.1 with
    | .ok l => some ⟨(p.2, l) :: out.byInit, l.body.map (·, l.exit) ++ out.exits⟩
    | .error (.err ()) => some out
    | .error .panic => none) {}

/-! ## Calls within one block -/

/-- The tracked stack behind instructions that are run on an empty stack. -/
def trackBlock (code : List DecodedInsn) : List StackItem :=
  code.foldl (stepItemStack dests) []

/-- `direct_jump_targets`: the jump destinations that a block pushes and jumps to. -/
def directJumpTargets : Option (List ℕ) := do
  let targets ← blocks.mapM fun blk =>
    match blk.term with
    | .jump | .jumpI => do
      let body ← blk.body insns
      match (trackBlock (isJumpdest insns) body).head? with
      | some (some (.const t)) => some [t]
      | _ => some []
    | .halt | .fall => some []
  some targets.flatten

/-- `RetCandidates`: the constants that can be return addresses. -/
structure RetCandidates where
  /-- The jump destinations into which nothing falls. -/
  afterJump : List ℕ
  /-- The constants that some block jumps to directly. -/
  direct : List ℕ
deriving DecidableEq, Repr

/-- `RetCandidates::new`. -/
def RetCandidates.new : Option RetCandidates := do
  let direct ← directJumpTargets blocks insns
  let afterJump := (blocks.filter fun b =>
    (b.term = .jump ∨ b.term = .halt) ∧ isJumpdest insns b.stop).map Block.stop
  some ⟨afterJump, direct⟩

/-- Whether a constant can be the return address of a jump to `target`. -/
def RetCandidates.accepts (target r : ℕ) : Bool :=
  r ≠ target ∧ r ∈ rets.afterJump ∧ r ∉ rets.direct

/-- `RetCandidates::find`: the topmost return address below a jump to `target`, and the items above
it. -/
def RetCandidates.find (stack : List StackItem) (target : ℕ) : Option (ℕ × ℕ) :=
  stack.zipIdx.findSome? fun p => match p.1 with
    | some (.const r) => if rets.accepts target r then some (r, p.2) else none
    | _ => none

/-- `CallSite`: an internal call. -/
structure CallSite where
  /-- The entry block of the called function. -/
  callee : ℕ
  /-- The number of arguments. -/
  nargs : ℕ
deriving DecidableEq, Repr

/-- The call that a block makes by itself: `PUSH ret … PUSH f; JUMP`. -/
def seedCall (blk : Block) : Option (Option CallSite) :=
  if blk.term ≠ .jump then some none
  else do
    let body ← blk.body insns
    match trackBlock (isJumpdest insns) body with
    | some (.const t) :: stack => match rets.find stack t with
      | none => some none
      | some (_, nargs) => do
        let callee ← byStart blocks t
        some (some ⟨callee, nargs⟩)
    | _ => some none

/-- `seed_calls`. -/
def seedCalls : Option (List (ℕ × CallSite)) := do
  let sites ← blocks.zipIdx.mapM fun p => do
    let site ← seedCall blocks insns rets p.1
    some (site.map (p.2, ·))
  some (sites.filterMap id)

end Univdreams.Decompile
