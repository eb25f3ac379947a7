import Univdreams.Decompile.EvmBlocks

/-!
# Control-flow recovery

The second half of `src/translate/decompile/evm_cfg.rs`: the abstract interpretation of one frame,
the rounds in which the functions are found, the functions that never return, and the depths of the
blocks.

The walk over a frame is a work list. `visitBlock` says what the walk does at one block with one
stack: the facts it learns and the blocks it wants to see, in the order of the source. `enqueue`
decides which of those it will see. Every pair of a block and a stack is enqueued once and each
block at most `maxStatesPerBlock` times, so the rounds of `analyzeFrame` are enough.
-/

namespace Univdreams.Decompile

open Evm

/-- `MAX_STATES_PER_BLOCK`: the entry stacks explored for each block. -/
def maxStatesPerBlock : ℕ := 64

/-- `MAX_ROUNDS`. -/
def maxRounds : ℕ := 32

/-- `MAX_BELOW`: the arguments accepted below a spilled return address. -/
def maxBelow : ℕ := 64

/-- `JumpRole`: what the jump at the end of a block does. -/
inductive JumpRole where
  | unknown
  | inner
  | call
  | ret
deriving DecidableEq, Repr

/-- `FuncInfo`: an internal function. -/
structure FuncInfo where
  /-- The number of arguments above the return address. -/
  nargs : ℕ
  /-- The number of items left for the caller, where it is known. -/
  nrets : Option ℕ := none
  /-- The function leaves its return address for the caller to pop. -/
  keepsRet : Bool := false
  /-- Every path ends in a halt or in a call that never returns. -/
  noreturn : Bool := false
  /-- The return address is stored to memory. -/
  retSpilled : Bool := false
  /-- The number of arguments below the return address. -/
  nbelow : ℕ := 0
deriving DecidableEq, Repr

/-- `FrameId`: the entry block of an internal function, or `none` for the root. -/
abbrev FrameId := Option ℕ

/-- `FrameShape`: the arguments below and above the return address; `none` for the root. -/
abbrev FrameShape := Option (ℕ × ℕ)

/-- `BlockDepth`: the entry depth of a block in its frame. -/
structure BlockDepth where
  frame : FrameId
  depth : ℕ
deriving DecidableEq, Repr

/-- `FrameFacts`: what the analysis of a frame learns. -/
structure FrameFacts where
  /-- The entry depths seen, each with its block. -/
  depths : List (ℕ × ℕ) := []
  /-- The resolved jumps. -/
  targets : List (ℕ × ℕ) := []
  /-- The blocks that return. -/
  returns : List ℕ := []
  /-- `locals`: the blocks that jump within the function. -/
  inner : List ℕ := []
  /-- The number of items left at the first return. -/
  nrets : Option ℕ := none
  keepsRet : Bool := false
  /-- The calls whose return address was pushed in an earlier block. -/
  newCalls : List (ℕ × CallSite) := []
  /-- The calls that the frame reached. -/
  reachedCalls : List CallSite := []
  /-- The continuations of calls. -/
  conts : List (ℕ × ℕ) := []
  tailCalls : List ℕ := []
  /-- The argument that the frame returned to. -/
  retViaArg : Option ℕ := none
  /-- Some jump could not be resolved. -/
  unresolved : Bool := false
  retSpilled : Bool := false
  /-- The most items taken from below the initial stack. -/
  underflow : ℕ := 0
deriving DecidableEq, Repr

/-- What the analysis of a frame reads. -/
structure FrameContext where
  blocks : List Block
  insns : List DecodedInsn
  rets : RetCandidates
  calls : List (ℕ × CallSite)
  loops : CountedLoops
  /-- The blocks that end in a jump through a table, with its targets. -/
  tables : List (ℕ × List ℕ)
  functions : List (ℕ × FuncInfo)
deriving DecidableEq, Repr

/-! ## One block -/

/-- `const_of`: the offset that a tracked constant is. -/
def constOf : StackItem → Option ℕ
  | some (.const v) | some (.num v) => some v
  | _ => none

/-- The number of items that an instruction needs. -/
def needs (ins : DecodedInsn) : ℕ :=
  if 0x80 ≤ ins.opcode ∧ ins.opcode ≤ 0x8f then (ins.opcode - 0x80).toNat + 1
  else if 0x90 ≤ ins.opcode ∧ ins.opcode ≤ 0x9f then (ins.opcode - 0x90).toNat + 2
  else (opInfo ins.opcode).pops

/-- The walk inside a block: the tracked stack, where memory holds the return address, and two
facts. -/
structure BodyState where
  stack : List StackItem
  retSlots : List ℕ
  retSpilled : Bool
  underflow : ℕ
deriving DecidableEq, Repr

/-- One instruction of a block. Only the entry block counts the items that it takes from below. -/
def stepBody (dests : ℕ → Bool) (isEntry : Bool) (s : BodyState) (ins : DecodedInsn) : BodyState :=
  let s := if isEntry then { s with underflow := max s.underflow (needs ins - s.stack.length) }
    else s
  if ins.opcode = 0x52 ∧ s.stack[1]? = some (some .ret) then
    match s.stack.head?.bind constOf with
    | some off =>
      { s with stack := s.stack.drop 2, retSlots := off :: s.retSlots, retSpilled := true }
    | none => { s with stack := s.stack.drop 2 }
  else if ins.opcode = 0x51 ∧ ((s.stack.head?.bind constOf).any fun o => o ∈ s.retSlots) then
    { s with stack := some .ret :: s.stack.tail }
  else { s with stack := stepItemStack dests s.stack ins }

/-- `always_taken`: the block ends in `PUSH1 0; ISZERO; PUSH skip; JUMPI`. -/
def alwaysTaken (code : List DecodedInsn) : Bool :=
  match code.reverse with
  | jumpi :: target :: iszero :: z :: _ =>
    z.opcode = 0x60 ∧ z.pushValue = some 0 ∧ iszero.opcode = 0x15 ∧
      (0x60 ≤ target.opcode ∧ target.opcode ≤ 0x7f) ∧ jumpi.opcode = 0x57
  | _ => false

/-- What the walk does at a block: the facts so far, and the blocks to see next, in order. -/
structure Visit where
  facts : FrameFacts
  requests : List (ℕ × List StackItem) := []
deriving DecidableEq, Repr

/-- The stack behind a counted loop, if it is deep enough for the loop. -/
def CountedLoop.after (l : CountedLoop) (stack : List StackItem) : Option (List StackItem) :=
  if (stack.length : ℤ) + min l.delta 0 < 0 then none
  else some (List.replicate l.delta.toNat none ++ stack.drop (-(min l.delta 0)).toNat)

variable (root : Option ℕ) (functions : List (ℕ × FuncInfo)) (cx : FrameContext)
  (facts : List (FrameId × FrameFacts))

/-- The end of a block that falls through. -/
def visitFall (facts : FrameFacts) (b : ℕ) (next : Option ℕ) (stack : List StackItem) : Visit :=
  let summary := match cx.loops.byInit.lookup b with
    | none => []
    | some l => ((l.after stack).map (l.exit, ·)).toList
  ⟨facts, summary ++ ((next.filter fun nb => cx.loops.walks b nb).map (·, stack)).toList⟩

/-- The end of a block that jumps on a condition. -/
def visitJumpI (facts : FrameFacts) (b : ℕ) (code : List DecodedInsn) (next : Option ℕ)
    (stack : List StackItem) : Option Visit := do
  let t := popItem stack
  let rest := t.2.tail
  let falls := if alwaysTaken code then none else next.filter fun nb => cx.loops.walks b nb
  match t.1 with
  | some (.const v) => do
    let tb ← byStart cx.blocks v
    let taken := if cx.loops.walks b tb then [(tb, rest)] else []
    some ⟨{ facts with targets := facts.targets ++ [(b, tb)] },
      taken ++ (falls.map (·, rest)).toList⟩
  | _ => some ⟨{ facts with unresolved := true }, (falls.map (·, rest)).toList⟩

/-- The call that a jump makes, and whether the block does not show it by itself: the target is a
known function, or the return address is right behind the jump. -/
def callAt (b : ℕ) (blk : Block) (t : StackItem) (stack : List StackItem) :
    Option (Option (CallSite × Bool)) :=
  match cx.calls.lookup b with
  | some site => some (some (site, false))
  | none => match t with
    | some (.const v) => do
      let tb ← byStart cx.blocks v
      match cx.rets.find stack v with
      | none => some none
      | some (r, n) =>
        if r ≠ blk.stop ∧ (cx.functions.lookup tb).isNone then some none
        else some (some (⟨tb, n⟩, true))
    | _ => some none

/-- The stack that a call leaves: results instead of the arguments and the return address, which has
`nargs` items above it and `below` under it. -/
def afterCall (stack : List StackItem) (nargs below nrets : ℕ) : Option (List StackItem) :=
  if stack.length < nargs + 1 + below then none
  else some (List.replicate nrets none ++ stack.drop (nargs + 1 + below))

/-- A jump that calls a function. -/
def visitCall (facts : FrameFacts) (b : ℕ) (site : CallSite) (stack : List StackItem) :
    Option Visit :=
  let callee := cx.functions.lookup site.callee
  let facts := { facts with
    reachedCalls := facts.reachedCalls ++ [site], targets := facts.targets ++ [(b, site.callee)] }
  let nargs := (callee.map FuncInfo.nargs).getD site.nargs
  let below := (callee.map FuncInfo.nbelow).getD 0
  let nrets := callee.bind FuncInfo.nrets
  match stack[nargs]? with
  | some (some (.const r)) => do
    let cont ← byStart cx.blocks r
    let resumed := nrets.bind fun nrets => afterCall stack nargs below nrets
    some ⟨{ facts with conts := facts.conts ++ [(b, cont)] }, (resumed.map (cont, ·)).toList⟩
  | some (some .ret) =>
    let left := nrets.bind fun nrets => (afterCall stack nargs below nrets).map List.length
    some ⟨{ facts with tailCalls := b :: facts.tailCalls, nrets := facts.nrets.or left }, []⟩
  | _ => some ⟨facts, []⟩

/-- The end of a block that jumps. -/
def visitJump (facts : FrameFacts) (b : ℕ) (blk : Block) (stack : List StackItem) :
    Option Visit := do
  let t := (popItem stack).1
  let rest := (popItem stack).2
  let call ← callAt cx b blk t rest
  match call, t with
  | some (site, isNew), _ =>
    let facts := if isNew then { facts with newCalls := facts.newCalls ++ [(b, site)] } else facts
    visitCall cx facts b site rest
  | none, some .ret =>
    some ⟨{ facts with
      returns := b :: facts.returns
      nrets := facts.nrets.or (some rest.length)
      keepsRet := facts.keepsRet || rest.contains (some .ret) }, []⟩
  | none, some (.const v) => do
    let tb ← byStart cx.blocks v
    some ⟨{ facts with inner := b :: facts.inner, targets := facts.targets ++ [(b, tb)] },
      if cx.loops.walks b tb then [(tb, rest)] else []⟩
  | none, some (.arg k) =>
    some ⟨{ facts with retViaArg := facts.retViaArg.or (some k), unresolved := true }, []⟩
  | none, _ => match cx.tables.lookup b with
    | some targets => some ⟨{ facts with
        inner := b :: facts.inner, targets := facts.targets ++ targets.map (b, ·) },
      targets.map (·, rest)⟩
    | none => some ⟨{ facts with unresolved := true }, []⟩

/-- The tracked stack behind the body of a block, and what the body establishes. -/
def walkBody (entry b : ℕ) (facts : FrameFacts) (retSlots : List ℕ) (body : List DecodedInsn)
    (stack : List StackItem) : BodyState :=
  body.foldl (stepBody (isJumpdest cx.insns) (b == entry))
    ⟨stack, retSlots, facts.retSpilled, facts.underflow⟩

/-- One round of the walk: the block `b` with the stack `stack`. -/
def visitBlock (entry : ℕ) (facts : FrameFacts) (retSlots : List ℕ) (b : ℕ)
    (stack : List StackItem) : Option (Visit × List ℕ) := do
  let blk ← cx.blocks[b]?
  let body ← blk.body cx.insns
  let s := walkBody cx entry b facts retSlots body stack
  let facts := { facts with
    depths := (b, stack.length) :: facts.depths
    retSpilled := s.retSpilled
    underflow := s.underflow }
  let next := byStart cx.blocks blk.stop
  let v ← match blk.term with
    | .fall => some (visitFall cx facts b next s.stack)
    | .halt => some ⟨facts, []⟩
    | .jumpI => do
      let code ← blk.code cx.insns
      visitJumpI cx facts b code next s.stack
    | .jump => visitJump cx facts b blk s.stack
  some (v, s.retSlots)

/-! ## The walk over a frame -/

/-- The work list and the pairs of blocks and stacks that were put on it. -/
structure Queue where
  work : List (ℕ × List StackItem)
  seen : List (ℕ × List StackItem)
deriving DecidableEq, Repr

/-- `enqueue`. -/
def Queue.enqueue (q : Queue) (x : ℕ × List StackItem) : Queue :=
  if x.2.length ≤ maxStack ∧ (q.seen.countP fun y => y.1 = x.1) < maxStatesPerBlock ∧
    x ∉ q.seen then
    ⟨x :: q.work, x :: q.seen⟩
  else q

/-- The stack with which a frame is entered. -/
def initialStack : FrameShape → List StackItem
  | none => []
  | some (below, n) =>
    (List.range n).reverse.map (fun k => if k < 2 ^ 16 then some (Tag.arg k) else none) ++
      some .ret :: List.replicate below none

/-- The rounds of the walk; `none` when it panics or the rounds do not suffice. -/
def walkFrame (cx : FrameContext) (entry : ℕ) : ℕ → Queue → FrameFacts → List ℕ → Option FrameFacts
  | 0, _, _, _ => none
  | rounds + 1, q, facts, retSlots => match q.work with
    | [] => some facts
    | x :: work => do
      let v ← visitBlock cx entry facts retSlots x.1 x.2
      walkFrame cx entry rounds (v.1.requests.foldl Queue.enqueue ⟨work, q.seen⟩) v.1.facts v.2

/-- `analyze_frame`. -/
def analyzeFrame (entry : ℕ) (shape : FrameShape) : Option FrameFacts :=
  walkFrame cx entry (maxStatesPerBlock * cx.blocks.length + 1)
    (Queue.enqueue ⟨[], []⟩ (entry, initialStack shape)) {} []

/-! ## Functions that never return -/

/-- A function of whose frame no return was seen and whose jumps are all resolved. -/
def noreturnCandidate (id : FrameId) (f : FrameFacts) : Option ℕ := do
  let e ← id
  let info ← functions.lookup e
  if info.nrets.isNone ∧ f.returns = [] ∧ f.tailCalls = [] ∧ f.retViaArg.isNone ∧ ¬f.unresolved then
    some e
  else none

/-- A candidate stays one if every call of its frame does not return or has its continuation
analysed. -/
def staysNoreturn (candidates : List ℕ) (e : ℕ) : Bool :=
  match facts.lookup (some e) with
  | none => false
  | some f => f.reachedCalls.all fun c =>
    c.callee ∈ candidates ∨ ((functions.lookup c.callee).any fun i => i.nrets.isSome)

/-- The rounds of `mark_noreturn`: the candidates that fail are removed until none does. -/
def noreturnLoop (functions : List (ℕ × FuncInfo)) (facts : List (FrameId × FrameFacts)) :
    ℕ → List ℕ → List ℕ
  | 0, candidates => candidates
  | rounds + 1, candidates =>
    let rest := candidates.filter (staysNoreturn functions facts candidates)
    if rest = candidates then candidates else noreturnLoop functions facts rounds rest

/-- The functions that `mark_noreturn` marks. -/
def noreturnSet : List ℕ :=
  let candidates := facts.filterMap fun p => noreturnCandidate functions p.1 p.2
  noreturnLoop functions facts (candidates.length + 1) candidates

/-- `mark_noreturn`. -/
def markNoreturn : List (ℕ × FuncInfo) :=
  functions.map fun p =>
    if p.1 ∈ noreturnSet functions facts then (p.1, { p.2 with noreturn := true }) else p

section Noreturn

variable (functions : List (ℕ × FuncInfo)) (facts : List (FrameId × FrameFacts))

/-- Candidates each of which stays one when no others are left. -/
def StayTogether (candidates es : List ℕ) : Prop :=
  es ⊆ candidates ∧ ∀ e ∈ es, staysNoreturn functions facts es e

theorem staysNoreturn_mono {es candidates : List ℕ} (hsub : es ⊆ candidates) {e : ℕ}
    (h : staysNoreturn functions facts es e) : staysNoreturn functions facts candidates e := by
  unfold staysNoreturn at h ⊢
  split at h
  · exact h
  · simp only [List.all_eq_true, decide_eq_true_eq] at h ⊢
    exact fun c hc => (h c hc).imp_left (hsub ·)

/-- Enough rounds end at the greatest closed set of candidates. -/
theorem noreturnLoop_greatest (rounds : ℕ) (candidates : List ℕ)
    (hlen : candidates.length < rounds) :
    let out := noreturnLoop functions facts rounds candidates
    StayTogether functions facts candidates out ∧
      ∀ es, StayTogether functions facts candidates es → es ⊆ out := by
  induction rounds generalizing candidates with
  | zero => cases hlen
  | succ n ih =>
    rw [noreturnLoop]
    split_ifs with h
    · exact ⟨⟨List.Subset.refl _, List.filter_eq_self.1 h⟩, fun es hes => hes.1⟩
    -- A round that removes some candidates leaves fewer.
    have hlt := (List.length_filter_lt_length_iff_exists).2 (by simpa [List.filter_eq_self] using h)
    obtain ⟨hstay, hmax⟩ := ih _ (hlt.trans_le (Nat.le_of_lt_succ hlen))
    refine ⟨⟨fun _ he => List.mem_of_mem_filter (hstay.1 he), hstay.2⟩,
      fun es hes => hmax es ⟨?_, hes.2⟩⟩
    intro e he
    exact List.mem_filter.2 ⟨hes.1 he, staysNoreturn_mono _ _ hes.1 (hes.2 e he)⟩

/-- Candidates that reach only calls of each other and of functions that return. -/
def DeadEnds (es : List ℕ) : Prop :=
  StayTogether functions facts (facts.filterMap fun p => noreturnCandidate functions p.1 p.2) es

/-- `mark_noreturn` marks the largest set of dead ends. -/
theorem noreturnSet_greatest : DeadEnds functions facts (noreturnSet functions facts) ∧
    ∀ es, DeadEnds functions facts es → es ⊆ noreturnSet functions facts :=
  noreturnLoop_greatest functions facts _ _ (Nat.lt_succ_self _)

end Noreturn

/-! ## The rounds -/

/-- What a round learns of a function from its frame, and whether that is new. -/
def FuncInfo.update (info : FuncInfo) (f : FrameFacts) : FuncInfo × Bool :=
  let info := { info with retSpilled := f.retSpilled }
  if f.retSpilled ∧ 0 < f.underflow ∧ info.nbelow < maxBelow then
    ({ info with nbelow := min (info.nbelow + f.underflow) maxBelow, nrets := none }, true)
  else if info.nrets.isSome then (info, false)
  else match f.retViaArg with
    | some k => ({ info with nargs := info.nargs - (k + 1) }, true)
    | none => if f.nrets.isSome then
        ({ info with nrets := f.nrets, keepsRet := f.keepsRet }, true)
      else (info, false)

/-- The value of a key replaced, where the key is there. -/
def setValue {α : Type} (m : List (ℕ × α)) (k : ℕ) (a : α) : List (ℕ × α) :=
  m.map fun p => if p.1 = k then (k, a) else p

/-- A key inserted at its place in the order, unless it is there. -/
def insertNew {α : Type} (k : ℕ) (a : α) : List (ℕ × α) → List (ℕ × α)
  | [] => [(k, a)]
  | p :: rest => if k < p.1 then (k, a) :: p :: rest else if k = p.1 then p :: rest
    else p :: insertNew k a rest

/-- The calls, the functions, and whether a round changed them. -/
structure RoundState where
  calls : List (ℕ × CallSite)
  functions : List (ℕ × FuncInfo)
  changed : Bool
deriving DecidableEq, Repr

/-- A call is entered, unless its site is known: the first view of it wins. -/
def RoundState.addCall (s : RoundState) (c : ℕ × CallSite) : RoundState :=
  if (s.calls.lookup c.1).isNone then { s with calls := s.calls ++ [c], changed := true } else s

/-- A reached function is entered, unless it is known. -/
def RoundState.addFunction (s : RoundState) (c : CallSite) : RoundState :=
  if (s.functions.lookup c.callee).isNone then
    { s with functions := insertNew c.callee { nargs := c.nargs } s.functions, changed := true }
  else s

/-- The facts of one frame are taken over. -/
def RoundState.absorb (s : RoundState) (p : FrameId × FrameFacts) : Option RoundState := do
  let s ← match p.1 with
    | none => some s
    | some e => do
      let info ← s.functions.lookup e
      let u := info.update p.2
      some { s with functions := setValue s.functions e u.1, changed := s.changed || u.2 }
  some (p.2.newCalls.foldl RoundState.addCall s)

/-- The frames of a round: the root, and the functions in order. -/
def frameList : List (FrameId × ℕ × FrameShape) :=
  (root.map fun r => (none, r, none)).toList ++
    functions.map fun p => (some p.1, p.1, some (p.2.nbelow, p.2.nargs))

/-- The analysis of all frames with the calls and functions of a round. -/
def analyzeFrames (root : Option ℕ) : Option (List (FrameId × FrameFacts)) :=
  (frameList root cx.functions).mapM fun p => (analyzeFrame cx p.2.1 p.2.2).map (p.1, ·)

/-- What a round makes of the facts of its frames. -/
def absorbAll : Option RoundState := do
  let s ← facts.foldlM RoundState.absorb ⟨cx.calls, cx.functions, false⟩
  some ((facts.flatMap fun p => p.2.reachedCalls).foldl RoundState.addFunction s)

/-- The rounds of `build_with`, until nothing changes: the functions, and the facts of their
frames. -/
def buildRounds (root : Option ℕ) : ℕ → FrameContext → List (FrameId × FrameFacts) →
    Option (FrameContext × List (FrameId × FrameFacts))
  | 0, cx, facts => some (cx, facts)
  | n + 1, cx, _ => do
    let facts ← analyzeFrames cx root
    let s ← absorbAll cx facts
    let cx := { cx with calls := s.calls, functions := s.functions }
    if s.changed then buildRounds root n cx facts else some (cx, facts)

/-! ## The graph -/

/-- `Cfg`. -/
structure Cfg where
  blocks : List Block
  reached : List Bool
  /-- The resolved targets of the jump at the end of each block. -/
  targets : List (List ℕ)
  role : List JumpRole
  calls : List (ℕ × CallSite)
  /-- The continuations of each call site. -/
  conts : List (ℕ × ℕ)
  tailCalls : List ℕ
  functions : List (ℕ × FuncInfo)
  /-- The entry depth of each block, where it is reached and consistent. -/
  depth : List (Option BlockDepth)
deriving DecidableEq, Repr

/-- The depths at which a frame enters a block. -/
def FrameFacts.depthsOf (f : FrameFacts) (b : ℕ) : List ℕ :=
  ((f.depths.filter fun p => p.1 = b).map Prod.snd).dedup

/-- The depth of a block so far, and whether the frames disagree about it. -/
structure DepthState where
  depth : Option BlockDepth := none
  conflicted : Bool := false
deriving DecidableEq, Repr

/-- The depths of one frame at a block are taken over. -/
def DepthState.merge (b : ℕ) (s : DepthState) (p : FrameId × FrameFacts) : DepthState :=
  match p.2.depthsOf b with
  | [] => s
  | [d] => match s.depth with
    | none => { s with depth := some ⟨p.1, d⟩ }
    | some prev => if prev ≠ ⟨p.1, d⟩ then { s with conflicted := true } else s
  | _ :: _ :: _ => { s with conflicted := true }

/-- The entry depth of a block. -/
def depthOf (b : ℕ) : Option BlockDepth :=
  let s := facts.foldl (DepthState.merge b) {}
  if s.conflicted then none else s.depth

/-- Whether some frame reaches a block. -/
def isReached (b : ℕ) : Bool :=
  facts.any fun p => p.2.depths.any fun d => d.1 = b

/-- The role of the jump at the end of a block. -/
def roleOf (calls : List (ℕ × CallSite)) (facts : List (FrameId × FrameFacts)) (b : ℕ) : JumpRole :=
  if (calls.lookup b).isSome ∧ isReached facts b then .call
  else if facts.any fun p => b ∈ p.2.returns then .ret
  else if facts.any fun p => b ∈ p.2.inner then .inner
  else .unknown

/-- The blocks that end in a jump whose targets a table gives. -/
def tableBlocks (blocks : List Block) (insns : List DecodedInsn) (jumpTables : List (ℕ × List ℕ)) :
    Option (List (ℕ × List ℕ)) := do
  let found ← blocks.zipIdx.mapM fun p =>
    if p.1.term ≠ .jump then some none
    else do
      let ins ← insns[p.1.last - 1]?
      some ((jumpTables.lookup ins.addr).map fun ts => (p.2, ts.filterMap (byStart blocks)))
  some (found.filterMap id)

/-- What `build_with` knows before the first round. -/
def FrameContext.new (checks : Bool) (insns : List DecodedInsn)
    (jumpTables : List (ℕ × List ℕ)) : Option FrameContext := do
  let blocks := splitBlocks insns
  let tables ← tableBlocks blocks insns jumpTables
  let rets ← RetCandidates.new blocks insns
  let loops ← CountedLoops.find checks blocks insns
  let calls ← seedCalls blocks insns rets
  some ⟨blocks, insns, rets, calls, loops, tables, []⟩

/-- The graph that the facts of the last round give. -/
def Cfg.ofFacts : Cfg :=
  let blocks := List.range cx.blocks.length
  { blocks := cx.blocks
    reached := blocks.map (isReached facts)
    targets := blocks.map fun b =>
      (facts.flatMap fun p => (p.2.targets.filter fun e => e.1 = b).map Prod.snd).dedup
    role := blocks.map (roleOf cx.calls facts)
    calls := cx.calls.filter fun c => isReached facts c.1
    conts := (facts.flatMap fun p => p.2.conts).dedup
    tailCalls := facts.flatMap fun p => p.2.tailCalls
    functions := markNoreturn cx.functions facts
    depth := blocks.map (depthOf facts) }

/-- `build_with`: the control-flow graph of the instructions, with the targets of table jumps. -/
def buildWith (checks : Bool) (insns : List DecodedInsn) (jumpTables : List (ℕ × List ℕ)) :
    Option Cfg := do
  let cx ← FrameContext.new checks insns jumpTables
  let last ← buildRounds (byStart cx.blocks 0) maxRounds cx []
  some (Cfg.ofFacts last.1 last.2)

namespace Cfg

end Cfg

end Univdreams.Decompile
