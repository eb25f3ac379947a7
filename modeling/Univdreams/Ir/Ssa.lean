import Univdreams.Words
import Univdreams.Text
import Univdreams.Ir.Dominators

/-!
# Static single assignment

`build_ssa` of `src/ir/ssa.rs`: predecessors and dominators of the flow graph, dominance frontiers,
placement of phi functions, renaming along the dominator tree, and the operands of the phi
functions. The pass is generic in the instructions; what it needs of one is its address, its length
and the variables that it reads and writes.

A definition is given by its record, which is its variable with its site, and not by the index of
the record in `defs`: the indices are handed out in the order in which a hash map is walked. The
lists of uses in the records are left out, as nothing here reads them.
-/

namespace Univdreams.Ir

/-! ## Functions -/

/-- A variable. -/
inductive Var where
  | reg (name : Text)
  | stack (offset : ℤ)
  | memory
  deriving DecidableEq, Repr

/-- How a block ends. -/
inductive Terminator where
  | fallthrough
  | unconditionalBranch (target : ℕ)
  | conditionalBranch (taken fallthrough : ℕ)
  | return
  | indirectBranch
  | invalidOrUnreachable
  deriving DecidableEq, Repr

/-- `ArchInsn`: the address and the length of an instruction. -/
class ArchInsn (ι : Type) where
  addr : ι → ℕ
  lenBytes : ι → ℕ

/-- `BasicBlock`. -/
structure BasicBlock (ι : Type) where
  addr : ℕ
  insns : List ι
  terminator : Terminator

/-- `Function`. An instruction is identified by its address. -/
structure Func (ι : Type) [ArchInsn ι] where
  blocks : List (BasicBlock ι)
  addrs_nodup : ((blocks.flatMap BasicBlock.insns).map ArchInsn.addr).Nodup

/-- An instruction with what it reads and writes, an entry of `BlockRw`. -/
structure Access where
  ip : ℕ
  reads : List Var
  writes : List Var
  deriving DecidableEq, Repr

section Func

variable {ι : Type} [ArchInsn ι]

/-- `BasicBlock::size`. -/
def BasicBlock.size (b : BasicBlock ι) : ℕ := (b.insns.map ArchInsn.lenBytes).sum

/-- `block_idx.get`: the last block with an address. -/
def blockIdx (f : Func ι) (addr : ℕ) : Option ℕ :=
  (List.range f.blocks.length).reverse.find? fun i => (f.blocks[i]?).any (·.addr = addr)

/-- `block_successors`. The address behind the block can overflow. -/
def blockSuccessors (checks : Bool) (f : Func ι) (block : BasicBlock ι) : Option (List ℕ) :=
  match block.terminator with
  | .fallthrough => do
    let next ← addWord checks block.addr block.size
    return (blockIdx f next).toList
  | .unconditionalBranch target => some (blockIdx f target).toList
  | .conditionalBranch taken fallthrough =>
    some ((blockIdx f fallthrough).toList ++ (blockIdx f taken).toList)
  | .return => some []
  | .indirectBranch => some []
  | .invalidOrUnreachable => some []

/-- `collect_reads_writes`, for one block. -/
def accesses (rw : ι → List Var × List Var) (block : BasicBlock ι) : List Access :=
  block.insns.map fun i => ⟨ArchInsn.addr i, (rw i).1, (rw i).2⟩

end Func

/-- What the pass uses of a function: its blocks by number, their successors and their
instructions. -/
structure Flow where
  size : ℕ
  succs : ℕ → List ℕ
  accs : ℕ → List Access

/-- The flow graph of a function. -/
def Func.flow {ι : Type} [ArchInsn ι] (checks : Bool) (f : Func ι)
    (rw : ι → List Var × List Var) : Option Flow := do
  let succs ← f.blocks.mapM (blockSuccessors checks f)
  return {
    size := f.blocks.length
    succs := fun b => succs.getD b []
    accs := fun b => (f.blocks[b]?).elim [] (accesses rw) }

namespace Flow

/-- `compute_predecessors`: a block stands as often as it has edges. -/
def preds (g : Flow) (b : ℕ) : List ℕ :=
  (List.range g.size).flatMap fun i => ((g.succs i).filter (· = b)).map fun _ => i

/-- Whether a block writes a variable. -/
def Writes (g : Flow) (v : Var) (b : ℕ) : Prop := ∃ a ∈ g.accs b, v ∈ a.writes

/-- Whether a block reads a variable. -/
def Reads (g : Flow) (v : Var) (b : ℕ) : Prop := ∃ a ∈ g.accs b, v ∈ a.reads

instance (g : Flow) (v : Var) (b : ℕ) : Decidable (g.Writes v b) :=
  inferInstanceAs (Decidable (∃ a ∈ g.accs b, v ∈ a.writes))

instance (g : Flow) (v : Var) (b : ℕ) : Decidable (g.Reads v b) :=
  inferInstanceAs (Decidable (∃ a ∈ g.accs b, v ∈ a.reads))

end Flow

/-! ## Placement of phi functions -/

/-- The inner loop of `compute_dominance_frontiers`: the blocks from `runner` to below `stop`. -/
def runners (dom : ℕ → ℕ) (stop : ℕ) : ℕ → ℕ → List ℕ
  | 0, _ => []
  | fuel + 1, runner =>
    if runner = stop then []
    else runner :: if dom runner = runner then [] else runners dom stop fuel (dom runner)

/-- `compute_dominance_frontiers`: the frontier of a block. -/
def dominanceFrontier (g : Flow) (dom : ℕ → ℕ) (r : ℕ) : List ℕ :=
  (List.range g.size).filter fun b =>
    2 ≤ (g.preds b).length ∧ ∃ p ∈ g.preds b, r ∈ runners dom (dom b) (g.size + 2) p

/-- The worklist of phi placement, the blocks with a phi function, and those entered. -/
structure Worklist where
  worklist : List ℕ
  placed : List ℕ
  inWorklist : List ℕ

/-- A block of a frontier. -/
def Worklist.place (w : Worklist) (y : ℕ) : Worklist :=
  if y ∈ w.placed then w
  else if y ∈ w.inWorklist then { w with placed := y :: w.placed }
  else ⟨y :: w.worklist, y :: w.placed, y :: w.inWorklist⟩

/-- The loop over the worklist. -/
def Worklist.run (df : ℕ → List ℕ) : ℕ → Worklist → List ℕ
  | 0, w => w.placed
  | fuel + 1, w =>
    match w.worklist with
    | [] => w.placed
    | b :: rest => Worklist.run df fuel ((df b).foldl Worklist.place { w with worklist := rest })

/-- `phi_blocks`: the iterated dominance frontier of the blocks that write a variable. -/
def phiBlocks (g : Flow) (dom : ℕ → ℕ) (v : Var) : List ℕ :=
  let defs := (List.range g.size).filter (g.Writes v)
  Worklist.run (dominanceFrontier g dom) (g.size + 1) ⟨defs, [], defs⟩

/-! ## Renaming -/

/-- A definition: the value at the entry of the function, a phi function, or an instruction. -/
inductive Def where
  | entry (v : Var)
  | phi (block : ℕ) (v : Var)
  | insn (ip : ℕ) (v : Var)
  deriving DecidableEq, Repr

/-- The renaming: the reaching definitions, the definitions of the instructions, and the stacks of
the variables, their tops in front. -/
structure Renaming where
  useAt : ℕ → Var → Option Def
  defAt : ℕ → Var → Option Def
  stack : Var → List Def

namespace Renaming

/-- A read takes the top of the stack. -/
def read (ip : ℕ) (st : Renaming) (r : Var) : Renaming :=
  match (st.stack r).head? with
  | some top =>
    { st with useAt := fun i v => if i = ip ∧ v = r then some top else st.useAt i v }
  | none => st

/-- A write pushes a new definition. -/
def write (ip : ℕ) (st : Renaming) (w : Var) : Renaming :=
  { st with
    defAt := fun i v => if i = ip ∧ v = w then some (.insn ip w) else st.defAt i v
    stack := fun v => if v = w then .insn ip w :: st.stack v else st.stack v }

/-- An instruction: its reads, and then its writes. -/
def access (st : Renaming) (a : Access) : Renaming :=
  a.writes.foldl (write a.ip) (a.reads.foldl (read a.ip) st)

/-- The phi functions of a block are pushed in front of its instructions. -/
def pushPhis (phis : Var → List ℕ) (b : ℕ) (st : Renaming) : Renaming :=
  { st with stack := fun v => if b ∈ phis v then .phi b v :: st.stack v else st.stack v }

/-- What was pushed is popped, down to the lengths of a snapshot. -/
def popTo (snapshot : Var → ℕ) (st : Renaming) : Renaming :=
  { st with stack := fun v => (st.stack v).drop ((st.stack v).length - snapshot v) }

end Renaming

/-- `invert_dom_tree`. -/
def domChildren (g : Flow) (dom : ℕ → ℕ) (b : ℕ) : List ℕ :=
  (List.range g.size).filter fun c => c ≠ dom c ∧ dom c = b

/-- `rename_dfs`. The number bounds the depth. -/
def renameDfs (g : Flow) (dom : ℕ → ℕ) (phis : Var → List ℕ) : ℕ → ℕ → Renaming → Renaming
  | 0, _, st => st
  | fuel + 1, b, st =>
    let snapshot := fun v => (st.stack v).length
    let st := st.pushPhis phis b
    let st := (g.accs b).foldl Renaming.access st
    let st := (domChildren g dom b).foldl (fun st c => renameDfs g dom phis fuel c st) st
    st.popTo snapshot

/-- `collect_all_vars`: the variables that get a definition at the entry. -/
def Flow.Tracks (g : Flow) (v : Var) : Prop :=
  ∃ b ∈ List.range g.size, g.Reads v b ∨ g.Writes v b

instance (g : Flow) (v : Var) : Decidable (g.Tracks v) :=
  inferInstanceAs (Decidable (∃ b ∈ List.range g.size, g.Reads v b ∨ g.Writes v b))

/-- The stacks at the start. -/
def Renaming.start (g : Flow) : Renaming where
  useAt _ _ := none
  defAt _ _ := none
  stack v := if g.Tracks v then [.entry v] else []

/-! ## Operands of phi functions -/

/-- What `fill_phi_incoming` takes from a predecessor: the last definition of its instructions, or
else the one that its last read uses, or else the one of the entry. -/
def resolve (g : Flow) (st : Renaming) (v : Var) (p : ℕ) : Def :=
  (((g.accs p).reverse.findSome? fun a => st.defAt a.ip v).or
    ((g.accs p).reverse.findSome? fun a => st.useAt a.ip v)).getD (.entry v)

/-- `SsaInfo`: the definitions of the reads and of the writes, and the operands of the phi
functions. -/
structure SsaInfo where
  useAt : ℕ → Var → Option Def
  defAt : ℕ → Var → Option Def
  incoming : ℕ → Var → Option (List Def)

/-- The result for a function without blocks. -/
def SsaInfo.empty : SsaInfo := ⟨fun _ _ => none, fun _ _ => none, fun _ _ => none⟩

/-- The state at the end of the renaming. -/
def Flow.renamed (g : Flow) (dom : ℕ → ℕ) (phis : Var → List ℕ) : Renaming :=
  renameDfs g dom phis (g.size + 2) 0 (.start g)

/-- The part of `build_ssa` behind the dominators. -/
def Flow.ssaWith (g : Flow) (dom : ℕ → ℕ) : SsaInfo :=
  let phis := phiBlocks g dom
  let st := g.renamed dom phis
  { useAt := st.useAt
    defAt := st.defAt
    incoming := fun b v =>
      if b ∈ phis v then some ((g.preds b).map (resolve g st v)) else none }

/-- `build_ssa`, of a flow graph. -/
def Flow.ssa (g : Flow) : Option SsaInfo :=
  if g.size = 0 then some .empty
  else do
    let dom ← computeDominators g.size g.succs g.preds
    return g.ssaWith dom

/-- `build_ssa`. -/
def buildSsa {ι : Type} [ArchInsn ι] (checks : Bool) (f : Func ι)
    (rw : ι → List Var × List Var) : Option SsaInfo := do
  let g ← f.flow checks rw
  g.ssa

end Univdreams.Ir
