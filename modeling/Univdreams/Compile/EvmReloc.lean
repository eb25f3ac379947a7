import Univdreams.Decompile.EvmCfg

/-!
# Which pushes hold offsets

The relocation analysis of `src/translate/compile/evm_edit.rs`. It follows every push through its
block and sorts it by what the block does with the pushed value: a code reference, an offset of
`CODECOPY`, or a plain number. The stack holds the indices of the pushing instructions, with the top
first.

`analyzeReloc_isRef` says what the layout needs of the result: the value of every reference is
known.
-/

namespace Univdreams.Compile

open Option

open Evm
open Decompile (Cfg Block isJumpdest popItem)

/-- `Reloc`: the pushes, by index, that hold offsets. -/
structure Reloc where
  /-- The code addresses: jump targets and return addresses. -/
  code : List ℕ := []
  /-- The source offsets of `CODECOPY`. -/
  data : List ℕ := []
  /-- The code addresses that are also used as numbers. -/
  fixed : List ℕ := []
deriving DecidableEq, Repr

/-- `is_ref`. -/
def Reloc.isRef (r : Reloc) (k : ℕ) : Bool := k ∈ r.code ∨ k ∈ r.data

/-- What the analysis reads. -/
structure RelocContext where
  insns : List DecodedInsn
  /-- The starts of the blocks that the graph knows as targets. -/
  known : List ℕ
  /-- The data regions, each with its end. -/
  dataSpans : List (ℕ × ℕ)
deriving DecidableEq, Repr

namespace RelocContext

variable (cx : RelocContext)

/-- `value`: the value that the instruction at an index pushes. -/
def value (i : ℕ) : Option ℕ := (cx.insns[i]?).bind DecodedInsn.pushValue

/-- The instruction at an index pushes a jump destination. -/
def isTarget (i : ℕ) : Bool := (cx.value i).any (isJumpdest cx.insns)

/-- `in_data`. -/
def inData (v : ℕ) : Bool :=
  v < (cx.insns.getLast?.map DecodedInsn.nextAddr).getD 0 ∨
    cx.dataSpans.any fun s => s.1 ≤ v ∧ v ≤ s.2

end RelocContext

/-- The sets that the analysis collects, and the stack within the current block. -/
structure RelocState where
  code : List ℕ := []
  data : List ℕ := []
  asNumber : List ℕ := []
  carried : List ℕ := []
  stack : List (Option ℕ) := []
deriving DecidableEq, Repr

namespace RelocState

/-- The stack below `n`, filled up from below until the item `n` deep is there. -/
def deepen (stack : List (Option ℕ)) (n : ℕ) : List (Option ℕ) :=
  stack ++ List.replicate (n + 1 - stack.length) none

variable (cx : RelocContext) (s : RelocState)

/-- `AND` keeps a target under a mask. -/
def mask : RelocState :=
  let a := popItem s.stack
  let b := popItem a.2
  match a.1, b.1 with
  | some x, some y =>
    if cx.isTarget x then { s with asNumber := y :: s.asNumber, stack := some x :: b.2 }
    else if cx.isTarget y then { s with asNumber := x :: s.asNumber, stack := some y :: b.2 }
    else { s with asNumber := x :: y :: s.asNumber, stack := none :: b.2 }
  | x, y => { s with asNumber := x.toList ++ y.toList ++ s.asNumber, stack := none :: b.2 }

/-- A jump, on a condition if `cond`. -/
def jump (cond : Bool) (s : RelocState) : RelocState :=
  let t := popItem s.stack
  let code := match t.1 with
    | some t => if cx.isTarget t then t :: s.code else s.code
    | none => s.code
  if cond then
    let c := popItem t.2
    { s with code := code, asNumber := c.1.toList ++ s.asNumber, stack := c.2 }
  else { s with code := code, stack := t.2 }

/-- `CODECOPY`. -/
def codecopy : RelocState :=
  let dest := popItem s.stack
  let off := popItem dest.2
  let size := popItem off.2
  let data := match off.1 with
    | some o => if (cx.value o).any cx.inData then o :: s.data else s.data
    | none => s.data
  { s with data := data, asNumber := dest.1.toList ++ size.1.toList ++ s.asNumber, stack := size.2 }

/-- One instruction, with its index. -/
def step (i : ℕ) (ins : DecodedInsn) : RelocState :=
  let op := ins.opcode
  if 0x5f ≤ op ∧ op ≤ 0x7f then { s with stack := some i :: s.stack }
  else if 0x80 ≤ op ∧ op ≤ 0x8f then
    { s with stack := (s.stack[(op - 0x80).toNat]?).join :: s.stack }
  else if 0x90 ≤ op ∧ op ≤ 0x9f then
    let n := (op - 0x90).toNat + 1
    { s with stack := exchange n (deepen s.stack n) }
  else if op = 0x50 then { s with stack := s.stack.tail }
  else if op = 0x16 then s.mask cx
  else if op = 0x56 then s.jump cx false
  else if op = 0x57 then s.jump cx true
  else if op = 0x39 then s.codecopy cx
  else { s with
    asNumber := (s.stack.take (opInfo op).pops).reduceOption ++ s.asNumber
    stack := List.replicate (opInfo op).pushes none ++ s.stack.drop (opInfo op).pops }

/-- The targets that outlive their block are carried. -/
def survive : RelocState :=
  { s with carried := (s.stack.reduceOption.filter fun i =>
      cx.isTarget i && (cx.value i).any fun v => v ∈ cx.known) ++ s.carried }

/-- One block, from an empty stack. -/
def block (blk : Block) : Option RelocState := do
  let s ← (List.range' blk.first (blk.last - blk.first)).foldlM
    (fun s i => (cx.insns[i]?).map (step cx s i)) { s with stack := [] }
  some (s.survive cx)

end RelocState

/-- `known`: the starts of the blocks that some jump, continuation or call names. -/
def knownTargets (cfg : Cfg) : Option (List ℕ) :=
  (cfg.targets.flatten ++ cfg.conts.map Prod.snd ++ cfg.calls.map fun c => c.2.callee).mapM fun b =>
    (cfg.blocks[b]?).map Block.start

/-- `analyze_reloc`; `none` where the graph names a block or an instruction that is not there. -/
def analyzeReloc (insns : List DecodedInsn) (cfg : Cfg) (dataSpans : List (ℕ × ℕ)) :
    Option Reloc := do
  let known ← knownTargets cfg
  let cx : RelocContext := ⟨insns, known, dataSpans⟩
  let s ← cfg.blocks.foldlM (RelocState.block cx) {}
  some {
    code := s.code ++ s.carried.filter fun i => i ∉ s.asNumber
    data := s.data
    fixed := s.code.filter fun i => i ∈ s.asNumber }

/-! ## The value of every reference is known -/

/-- Everything that the analysis has found to be a reference is a push of a known value. -/
structure RelocState.Known (cx : RelocContext) (s : RelocState) : Prop where
  code : ∀ i ∈ s.code, (cx.value i).isSome
  data : ∀ i ∈ s.data, (cx.value i).isSome
  carried : ∀ i ∈ s.carried, (cx.value i).isSome

namespace RelocState

variable {cx : RelocContext} {s : RelocState}

/-- Only a jump and `CODECOPY` find references inside a block; each of the two looks at the
value. -/
theorem Known.step (h : Known cx s) (i : ℕ) (ins : DecodedInsn) : Known cx (s.step cx i ins) := by
  have keep : ∀ t : RelocState, t.code = s.code → t.data = s.data → t.carried = s.carried →
      Known cx t := by
    intro t hc hd hr
    exact ⟨by rw [hc]; exact h.code, by rw [hd]; exact h.data, by rw [hr]; exact h.carried⟩
  have hjump : ∀ cond, Known cx (s.jump cx cond) := by
    intro cond
    have hcode : ∀ i ∈ (s.jump cx cond).code, (cx.value i).isSome := by
      intro i hi
      have hi' : i ∈ (match (popItem s.stack).1 with
          | some t => if cx.isTarget t then t :: s.code else s.code
          | none => s.code) := by
        cases cond <;> exact hi
      split at hi'
      · split_ifs at hi' with ht
        · rcases List.mem_cons.1 hi' with rfl | hi'
          · exact isSome_of_any ht
          · exact h.code i hi'
        · exact h.code i hi'
      · exact h.code i hi'
    cases cond <;> exact ⟨hcode, h.data, h.carried⟩
  have hcopy : Known cx (s.codecopy cx) := by
    refine ⟨h.code, ?_, h.carried⟩
    intro i hi
    unfold codecopy at hi
    simp only at hi
    split at hi
    · split_ifs at hi with ho
      · rcases List.mem_cons.1 hi with rfl | hi
        · exact isSome_of_any ho
        · exact h.data i hi
      · exact h.data i hi
    · exact h.data i hi
  have hmask : Known cx (s.mask cx) := by
    unfold mask
    simp only
    split
    · split_ifs
      · exact keep _ rfl rfl rfl
      · exact keep _ rfl rfl rfl
      · exact keep _ rfl rfl rfl
    · exact keep _ rfl rfl rfl
  unfold RelocState.step
  simp only
  split_ifs
  · exact keep _ rfl rfl rfl
  · exact keep _ rfl rfl rfl
  · exact keep _ rfl rfl rfl
  · exact keep _ rfl rfl rfl
  · exact hmask
  · exact hjump false
  · exact hjump true
  · exact hcopy
  · exact keep _ rfl rfl rfl

theorem Known.survive (h : Known cx s) : Known cx (s.survive cx) := by
  refine ⟨h.code, h.data, ?_⟩
  intro i hi
  rcases List.mem_append.1 hi with hi | hi
  · have ht := (List.mem_filter.1 hi).2
    rw [Bool.and_eq_true] at ht
    exact isSome_of_any ht.2
  · exact h.carried i hi

theorem Known.block {t : RelocState} {blk : Block} (h : Known cx s)
    (hb : s.block cx blk = some t) : Known cx t := by
  obtain ⟨u, hu, ht⟩ := bind_eq_some_iff.1 hb
  have hstart : Known cx { s with stack := [] } := ⟨h.code, h.data, h.carried⟩
  have hu' : Known cx u := by
    refine foldlM_some_invariant hstart ?_ hu
    intro s i t hs hi
    obtain ⟨ins, -, rfl⟩ := map_eq_some_iff.1 hi
    exact hs.step i ins
  rw [← some_inj.1 ht]
  exact hu'.survive

end RelocState

/-- A reference that the analysis finds is a push whose value is known. -/
theorem analyzeReloc_isRef {insns : List DecodedInsn} {cfg : Cfg} {dataSpans : List (ℕ × ℕ)}
    {r : Reloc} (h : analyzeReloc insns cfg dataSpans = some r) {k : ℕ} (hk : r.isRef k) :
    ∃ ins v, insns[k]? = some ins ∧ ins.pushValue = some v := by
  obtain ⟨known, -, h⟩ := bind_eq_some_iff.1 h
  obtain ⟨s, hs, hr⟩ := bind_eq_some_iff.1 h
  have hknown : RelocState.Known ⟨insns, known, dataSpans⟩ s := by
    refine foldlM_some_invariant ⟨?_, ?_, ?_⟩ (fun s blk t hs ht => hs.block ht) hs <;>
      simp
  have hvalue : ((⟨insns, known, dataSpans⟩ : RelocContext).value k).isSome := by
    rw [Reloc.isRef, decide_eq_true_eq, ← some_inj.1 hr] at hk
    rcases hk with hk | hk
    · rcases List.mem_append.1 hk with hk | hk
      · exact hknown.code k hk
      · exact hknown.carried k (List.mem_filter.1 hk).1
    · exact hknown.data k hk
  obtain ⟨v, hv⟩ := isSome_iff_exists.1 hvalue
  obtain ⟨ins, hins, hv⟩ := bind_eq_some_iff.1 hv
  exact ⟨ins, v, hins, hv⟩

end Univdreams.Compile
