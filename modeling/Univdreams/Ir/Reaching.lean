import Univdreams.Bytes
import Univdreams.Ir.Rename

/-!
# Reaching definitions

What the answers of `build_ssa` of `src/ir/ssa.rs` say about the paths of the flow graph. A read
whose reaching definition is an instruction has that instruction as its last write on every path
from the entry. A read whose reaching definition is the one of the entry has no write on a path that
does not come back to the entry block. On a path that does, it may have one: the frontiers skip
blocks with a single predecessor, and no block has the entry block in the frontier of the entry
block, so that an entry block that is the target of a jump can lack a phi function.
-/

namespace Univdreams.Ir

open Univdreams.ParentMap List Relation.ReflTransGen Ir.Flow

variable {t : List Access} {b : ℕ} {phis : Var → List ℕ}

/-! ## Functions and their flow graphs -/

section Func

variable {ι : Type} [ArchInsn ι] {f : Func ι}

theorem blockIdx_lt {addr i : ℕ} (h : blockIdx f addr = some i) : i < f.blocks.length := by
  have := List.mem_of_find?_eq_some h
  simpa using this

/-- The successors of a block are blocks. -/
theorem blockSuccessors_lt {checks : Bool} {block : BasicBlock ι} {ss : List ℕ}
    (h : blockSuccessors checks f block = some ss) : ∀ s ∈ ss, s < f.blocks.length := by
  have hidx : ∀ addr, ∀ s ∈ (blockIdx f addr).toList, s < f.blocks.length := fun addr s hs =>
    blockIdx_lt (Option.mem_toList.1 hs)
  unfold blockSuccessors at h
  cases hterm : block.terminator with
  | fallthrough =>
    rw [hterm] at h
    obtain ⟨next, -, rfl⟩ := steps₁_eq_some.1 h
    exact hidx next
  | unconditionalBranch target =>
    rw [hterm] at h
    cases h
    exact hidx target
  | conditionalBranch taken fallthrough =>
    rw [hterm] at h
    cases h
    intro s hs
    obtain hs | hs := List.mem_append.1 hs
    · exact hidx _ s hs
    · exact hidx _ s hs
  | «return» | indirectBranch | invalidOrUnreachable =>
    rw [hterm] at h
    cases h
    simp

theorem flatMap_range {α β : Type} (l : List α) (F : α → List β) :
    (List.range l.length).flatMap (fun i => (l[i]?).elim [] F) = l.flatMap F := by
  rw [List.flatMap_def, List.flatMap_def]
  congr 1
  refine List.ext_getElem (by simp) fun i h1 h2 => ?_
  have hi : i < l.length := by simpa using h2
  simp [hi]

/-- The flow graph of a function is well formed. -/
theorem flow_wf {checks : Bool} {rw : ι → List Var × List Var} {g : Flow}
    (h : f.flow checks rw = some g) : g.WF := by
  obtain ⟨table, htable, rfl⟩ := steps₁_eq_some.1 h
  refine ⟨fun b _ s hs => ?_, ?_⟩
  · simp only at hs
    by_cases hb : b < table.length
    · rw [getD_eq_getElem _ _ hb] at hs
      obtain ⟨block, -, hblock⟩ := exists_of_mem_mapM htable (getElem_mem hb)
      exact blockSuccessors_lt hblock s hs
    · rw [getD_eq_default _ _ (by omega)] at hs
      simp at hs
  · simp only
    rw [flatMap_range, map_flatMap]
    have hmap : ∀ block : BasicBlock ι,
        (accesses rw block).map Access.ip = block.insns.map ArchInsn.addr := by
      intro block
      simp [accesses, Function.comp_def]
    simp only [hmap]
    rw [← map_flatMap]
    exact f.addrs_nodup

end Func

/-! ## The dominator tree of a flow graph -/

section Tree

variable {g : Flow}

/-- What is used of the dominator tree. If every block is reachable, the dominator of a block is
above its predecessors. -/
structure Dominates (g : Flow) (dom : ℕ → ℕ) (depth : ℕ → ℕ) : Prop extends IsTree g dom depth where
  above : ∀ p < g.size, ∀ b ∈ g.succs p, b ≠ 0 → Below dom (dom b) p
  single : ∀ b < g.size, b ≠ 0 → ∀ p, g.preds b = [p] → dom b = p

/-- The dominators form a tree, and dominate if every block is reachable. -/
theorem computeDominators_spec (hg : g.WF) (h0 : 0 < g.size) :
    ∃ dom depth, computeDominators g.size g.succs g.preds = some dom ∧ IsTree g dom depth ∧
      ((∀ b < g.size, b ∈ reversePostorder g.size g.succs) → Dominates g dom depth) := by
  have horder := order_reversePostorder hg.succs_lt h0
  obtain ⟨D, hD, hdom⟩ := domTree_spec hg.succs_lt h0 fun p b => mem_preds
  have hlen := horder.length_le hg.succs_lt h0
  have hlt := horder.lt hg.succs_lt h0
  generalize reversePostorder g.size g.succs = rpo at *
  have hR := hdom.ranked
  have hindex : ∀ b, rpoIndex rpo b ≤ g.size := fun b => (rpoIndex_le b).trans hlen
  have htree : IsTree g (fun b => (D b).getD 0)
      (fun b => if (D b).isSome then rpoIndex rpo b else g.size + 1) := by
    refine ⟨by simp [hR.root_parent], fun b hb => ?_, fun b hb hb0 => ?_, fun b => ?_⟩
    · cases hd : D b with
      | none => simpa using h0
      | some d => simpa using hlt d ((hdom.known d).1 (hR.known hd))
    · cases hd : D b with
      | none =>
        have := hindex 0
        simp only [Option.getD_none, hR.root_parent, Option.isSome_some, if_true,
          Option.isSome_none, Bool.false_eq_true, if_false]
        omega
      | some d =>
        have hk : (D d).isSome := hR.known hd
        simpa [hk] using hR.lt hd hb0
    · split_ifs
      · exact (hindex b).trans (by omega)
      · exact le_refl _
  refine ⟨_, _, by rw [computeDominators, hD]; rfl, htree, fun hreach => ⟨htree, ?_, ?_⟩⟩
  · -- The root is its own parent in the one form of the tree, and has none in the other.
    have hbelow : ∀ {a b}, Anc D a b → Below (fun b => (D b).getD 0) a b := by
      intro a b h
      refine h.induction (P := fun b => Below (fun b => (D b).getD 0) a b) .refl ?_
      intro u d hd _ ih
      by_cases hu : u = 0
      · subst hu
        obtain rfl : 0 = d := by
          rw [hR.root_parent, Option.some.injEq] at hd
          exact hd
        exact ih
      · exact .head ⟨hu, by simp [hd]⟩ ih
    intro p hp b hb hb0
    have hbs := hg.succs_lt p hp b hb
    obtain ⟨d, hd, hnear⟩ := hdom.nearest b (hreach b hbs) hb0
    have hpk : Known D p := (hdom.known p).2 (hreach p hp)
    have := hbelow ((hnear.1 d).1 (.refl D d) p (mem_preds.2 ⟨hp, hb⟩) hpk)
    simpa [hd] using this
  · intro b hb hb0 p hp
    obtain ⟨d, hd, hnear⟩ := hdom.nearest b (hreach b hb) hb0
    simpa [hd] using hnear.2 p hp

end Tree

/-! ## Operands of phi functions -/

/-- The operands of a phi function are the definitions that are live at the ends of the
predecessors, exactly where each predecessor writes or reads the variable, or where no block of its
path in the dominator tree writes the variable or has a phi function of it. -/
theorem incoming_live_iff {ι : Type} [ArchInsn ι] {checks : Bool} {f : Func ι}
    {rw : ι → List Var × List Var} {g : Flow} (hflow : f.flow checks rw = some g)
    (h0 : 0 < g.size) :
    ∃ dom ssa, computeDominators g.size g.succs g.preds = some dom ∧
      buildSsa checks f rw = some ssa ∧
      ∀ b v ds, ssa.incoming b v = some ds →
        (List.Forall₂ (LiveOut g dom (phiBlocks g dom) v) (g.preds b) ds ↔
          ∀ p ∈ g.preds b, g.Writes v p ∨ g.Reads v p ∨ Clean g dom (phiBlocks g dom) v p) := by
  have hg := flow_wf hflow
  obtain ⟨dom, depth, hdom, ht, -⟩ := computeDominators_spec hg h0
  refine ⟨dom, g.ssaWith dom, hdom, ?_, fun b v ds hds => ?_⟩
  · rw [buildSsa, hflow, Option.bind_eq_bind, Option.bind_some, Flow.ssa, if_neg (by omega), hdom]
    rfl
  simp only [Flow.ssaWith] at hds
  split_ifs at hds with hb
  cases hds
  rw [List.forall₂_map_right_iff, List.forall₂_same]
  exact forall₂_congr fun p hp => liveOut_resolve_iff _ hg ht (Flow.mem_preds.1 hp).1

/-- Instructions of one byte that are given by what they read and write. -/
instance : ArchInsn Access := ⟨Access.ip, fun _ => 1⟩

/-- What such an instruction reads and writes. -/
def Access.rw (a : Access) : List Var × List Var := (a.reads, a.writes)

/-- Two variables are written, written again in one of two branches, and read behind; the other
branch reads one. -/
def diamond : Func Access where
  blocks := [
    ⟨0, [⟨0, [], [.memory, .stack 0]⟩], .conditionalBranch 2 1⟩,
    ⟨1, [⟨1, [], [.memory, .stack 0]⟩], .unconditionalBranch 3⟩,
    ⟨2, [⟨2, [.stack 0], []⟩], .unconditionalBranch 3⟩,
    ⟨3, [⟨3, [.memory, .stack 0], []⟩], .return⟩]
  addrs_nodup := by decide

/-- The flow graph of `diamond`. -/
def diamondFlow : Flow where
  size := 4
  succs b := [[1, 2], [3], [3], []].getD b []
  accs b := [[⟨0, [], [.memory, .stack 0]⟩], [⟨1, [], [.memory, .stack 0]⟩], [⟨2, [.stack 0], []⟩],
    [⟨3, [.memory, .stack 0], []⟩]].getD b []

/-- The flow graph is computed. -/
theorem flow_diamond : diamond.flow true Access.rw = some diamondFlow := by
  have hsuccs : ∀ b, [[1, 2], [3], [3], []].getD b [] = diamondFlow.succs b := fun _ => rfl
  have haccs : ∀ b, (diamond.blocks[b]?).elim [] (accesses Access.rw) = diamondFlow.accs b := by
    intro b
    match b with
    | 0 | 1 | 2 | 3 => rfl
    | _ + 4 => rfl
  show some (Flow.mk 4 (fun b => [[1, 2], [3], [3], []].getD b [])
    fun b => (diamond.blocks[b]?).elim [] (accesses Access.rw)) = _
  simp only [hsuccs, haccs]
  rfl

/-- The dominators of `diamond`. -/
def diamondDom : ℕ → ℕ :=
  (computeDominators diamondFlow.size diamondFlow.succs diamondFlow.preds).getD id

/-- The dominators are computed. -/
theorem computeDominators_diamond :
    computeDominators diamondFlow.size diamondFlow.succs diamondFlow.preds = some diamondDom := by
  have h : (computeDominators diamondFlow.size diamondFlow.succs diamondFlow.preds).isSome := by
    decide
  obtain ⟨dom, hdom⟩ := Option.isSome_iff_exists.1 h
  rw [diamondDom, hdom]
  rfl

/-- The SSA form of `diamond`. -/
theorem buildSsa_diamond : buildSsa true diamond Access.rw =
    some (diamondFlow.ssaWith diamondDom) := by
  rw [buildSsa, flow_diamond, Option.bind_eq_bind, Option.bind_some, Flow.ssa,
    if_neg (by decide), computeDominators_diamond]
  rfl

/-- The operands for the variable that the other branch reads are live. -/
theorem incoming_live_iff_diamond : ∃ g dom ssa, diamond.flow true Access.rw = some g ∧
    computeDominators g.size g.succs g.preds = some dom ∧
      buildSsa true diamond Access.rw = some ssa ∧ g.preds 3 = [1, 2] ∧
      ssa.incoming 3 (.stack 0) = some [.insn 1 (.stack 0), .insn 0 (.stack 0)] ∧
      List.Forall₂ (LiveOut g dom (phiBlocks g dom) (.stack 0)) (g.preds 3)
        [.insn 1 (.stack 0), .insn 0 (.stack 0)] := by
  obtain ⟨dom, ssa, hdom, hssa, hiff⟩ := incoming_live_iff flow_diamond (by decide)
  cases computeDominators_diamond.symm.trans hdom
  cases buildSsa_diamond.symm.trans hssa
  have hincoming : (diamondFlow.ssaWith diamondDom).incoming 3 (.stack 0) =
      some [.insn 1 (.stack 0), .insn 0 (.stack 0)] := by decide
  refine ⟨_, _, _, flow_diamond, hdom, hssa, by decide, hincoming, (hiff _ _ _ hincoming).2 ?_⟩
  -- One predecessor writes the variable, the other one reads it.
  intro p hp
  have hcases : ∀ p ∈ diamondFlow.preds 3, diamondFlow.Writes (.stack 0) p ∨
      diamondFlow.Reads (.stack 0) p := by decide
  exact (hcases p hp).imp_right .inl

/-- The operand for the branch that neither writes nor reads the variable is the value at the entry,
where the first write is live. -/
theorem not_incoming_live : ∃ g dom ssa, diamond.flow true Access.rw = some g ∧
    computeDominators g.size g.succs g.preds = some dom ∧
      buildSsa true diamond Access.rw = some ssa ∧ g.preds 3 = [1, 2] ∧
      ssa.incoming 3 .memory = some [.insn 1 .memory, .entry .memory] ∧
      LiveOut g dom (phiBlocks g dom) .memory 2 (.insn 0 .memory) ∧
      ¬LiveOut g dom (phiBlocks g dom) .memory 2 (.entry .memory) := by
  have hlive : LiveOut diamondFlow diamondDom (phiBlocks diamondFlow diamondDom) .memory 2
      (.insn 0 .memory) := by
    refine .inr ⟨rfl, .write (by decide) ?_ ?_⟩
    · decide
    · decide
  refine ⟨diamondFlow, diamondDom, _, flow_diamond, computeDominators_diamond, buildSsa_diamond,
    by decide, by decide, hlive, fun h => ?_⟩
  exact absurd (hlive.unique h) (by decide)

/-! ## Where phi functions are placed -/

section Placement

variable {df : ℕ → List ℕ} {n : ℕ}

/-- A worklist of blocks: what is placed and what is to do was entered once. -/
structure Worklist.Ok (n : ℕ) (w : Worklist) : Prop where
  placed : w.placed ⊆ w.inWorklist
  todo : w.worklist ⊆ w.inWorklist
  nodup : w.inWorklist.Nodup
  lt : ∀ y ∈ w.inWorklist, y < n

theorem Worklist.Ok.length_le {w : Worklist} (h : w.Ok n) : w.inWorklist.length ≤ n := by
  have hsub : w.inWorklist ⊆ List.range n := fun y hy => mem_range.2 (h.lt y hy)
  simpa using (h.nodup.subperm hsub).length_le

/-- What placing blocks does to a worklist: they are placed, and those that were not entered are to
do. -/
structure Placed (w w' : Worklist) (ys : List ℕ) : Prop where
  placed : ∀ y, y ∈ w'.placed ↔ y ∈ w.placed ∨ y ∈ ys
  entered : w.inWorklist ⊆ w'.inWorklist
  todo : w.worklist ⊆ w'.worklist
  new : ∀ y ∈ w'.inWorklist, y ∈ w.inWorklist ∨ y ∈ w'.worklist ∧ y ∈ ys
  length : w'.worklist.length + w.inWorklist.length = w.worklist.length + w'.inWorklist.length

/-- Placing a block marks it and keeps the worklist in order. -/
theorem place_spec {w : Worklist} (h : w.Ok n) {y : ℕ} (hy : y < n) :
    (w.place y).Ok n ∧ Placed w (w.place y) [y] := by
  unfold Worklist.place
  split_ifs with hp hw
  · refine ⟨h, fun z => ?_, fun _ h => h, fun _ h => h, fun z hz => .inl hz, rfl⟩
    rw [mem_singleton]
    exact ⟨.inl, fun hz => hz.elim id fun hz => hz ▸ hp⟩
  · refine ⟨⟨fun z hz => ?_, h.todo, h.nodup, h.lt⟩, fun z => by simp [or_comm], fun _ h => h,
      fun _ h => h, fun z hz => .inl hz, rfl⟩
    obtain rfl | hz := mem_cons.1 hz
    · exact hw
    · exact h.placed hz
  · refine ⟨⟨cons_subset_cons y h.placed, cons_subset_cons y h.todo,
      nodup_cons.2 ⟨hw, h.nodup⟩, fun z hz => ?_⟩, fun z => by simp [or_comm],
      subset_cons_self _ _, subset_cons_self _ _, fun z hz => ?_, ?_⟩
    · obtain rfl | hz := mem_cons.1 hz
      · exact hy
      · exact h.lt z hz
    · obtain rfl | hz := mem_cons.1 hz
      · exact .inr ⟨by simp, by simp⟩
      · exact .inl hz
    · simp only [length_cons]
      omega

/-- The loop over a frontier. -/
theorem foldl_place : ∀ (ys : List ℕ) (w : Worklist), (∀ y ∈ ys, y < n) → w.Ok n →
    (ys.foldl Worklist.place w).Ok n ∧ Placed w (ys.foldl Worklist.place w) ys
  | [], w, _, h => ⟨h, by simp, fun _ h => h, fun _ h => h, fun y hy => .inl hy, rfl⟩
  | y :: ys, w, hys, h => by
    obtain ⟨h1, s⟩ := place_spec h (hys y (by simp))
    obtain ⟨h2, k⟩ := foldl_place ys (w.place y) (fun z hz => hys z (by simp [hz])) h1
    rw [foldl_cons]
    refine ⟨h2, fun z => ?_, fun z hz => k.entered (s.entered hz), fun z hz => k.todo (s.todo hz),
      fun z hz => ?_, ?_⟩
    · rw [k.placed, s.placed, mem_singleton, mem_cons, or_assoc]
    · obtain hz | hz := k.new z hz
      · obtain hz | ⟨hz, hzy⟩ := s.new z hz
        · exact .inl hz
        · exact .inr ⟨k.todo hz, by simp [mem_singleton.1 hzy]⟩
      · exact .inr ⟨hz.1, by simp [hz.2]⟩
    · have h1 := s.length
      have h2 := k.length
      omega

/-- The loop stops with a set that is closed under frontiers, and within any property of the first
frontiers that frontiers keep. -/
theorem run_spec (hdf : ∀ b, ∀ y ∈ df b, y < n) {defs : List ℕ} {Q : ℕ → Prop}
    (hdefs : ∀ b ∈ defs, ∀ y ∈ df b, Q y) (hQ : ∀ b, Q b → ∀ y ∈ df b, Q y) :
    ∀ fuel (w : Worklist), w.worklist.length + (n - w.inWorklist.length) < fuel → w.Ok n →
      (∀ b ∈ w.inWorklist, b ∈ w.worklist ∨ ∀ y ∈ df b, y ∈ w.placed) →
      (∀ b ∈ w.inWorklist, b ∈ defs ∨ Q b) → (∀ y ∈ w.placed, Q y) →
        (∀ b, b ∈ w.inWorklist ∨ b ∈ Worklist.run df fuel w → ∀ y ∈ df b,
          y ∈ Worklist.run df fuel w) ∧
        (∀ y ∈ Worklist.run df fuel w, Q y) := by
  intro fuel
  induction fuel with
  | zero => exact fun w h => absurd h (by omega)
  | succ fuel ih =>
    intro w hfuel hok h4 h6 h7
    rw [Worklist.run]
    cases hw : w.worklist with
    | nil =>
      -- Everything that was entered has been treated.
      refine ⟨fun b hb y hy => ?_, h7⟩
      obtain h | h := h4 b (hb.elim id fun h => hok.placed h)
      · rw [hw] at h
        cases h
      · exact h y hy
    | cons b rest =>
      have hbw : b ∈ w.inWorklist := hok.todo (by simp [hw])
      have hbQ : ∀ y ∈ df b, Q y := (h6 b hbw).elim (hdefs b) (hQ b)
      have hok' : Worklist.Ok n { w with worklist := rest } :=
        ⟨hok.placed, fun y hy => hok.todo (by simp [hw, hy]), hok.nodup, hok.lt⟩
      obtain ⟨kok, k⟩ := foldl_place (df b) { w with worklist := rest } (hdf b) hok'
      have hle1 := hok.length_le
      have hle2 := kok.length_le
      have hlen := k.length
      rw [hw, length_cons] at hfuel
      simp only at hlen
      have hdone : ∀ c ∈ ((df b).foldl Worklist.place { w with worklist := rest }).inWorklist,
          c ∈ ((df b).foldl Worklist.place { w with worklist := rest }).worklist ∨
            ∀ y ∈ df c, y ∈ ((df b).foldl Worklist.place { w with worklist := rest }).placed := by
        intro c hc
        obtain hc | hc := k.new c hc
        · by_cases hcb : c = b
          · subst hcb
            exact .inr fun y hy => (k.placed y).2 (.inr hy)
          obtain h | h := h4 c hc
          · rw [hw, mem_cons] at h
            exact .inl (k.todo (h.resolve_left hcb))
          · exact .inr fun y hy => (k.placed y).2 (.inl (h y hy))
        · exact .inl hc.1
      obtain ⟨r1, r2⟩ := ih _ (by omega) kok hdone
        (fun c hc => (k.new c hc).elim (h6 c) fun hc => .inr (hbQ c hc.2))
        (fun y hy => ((k.placed y).1 hy).elim (h7 y) (hbQ y))
      exact ⟨fun c hc y hy => r1 c (hc.imp_left fun h => k.entered h) y hy, r2⟩

variable {g : Flow} {dom : ℕ → ℕ} {v : Var}

/-- Exactly the blocks in the frontier of one that writes the variable, or has a phi function of it,
have a phi function. -/
theorem phiBlocks_spec {Q : ℕ → Prop}
    (hdefs : ∀ b < g.size, g.Writes v b → ∀ y ∈ dominanceFrontier g dom b, Q y)
    (hQ : ∀ b, Q b → ∀ y ∈ dominanceFrontier g dom b, Q y) :
    (∀ b, b < g.size ∧ g.Writes v b ∨ b ∈ phiBlocks g dom v → ∀ y ∈ dominanceFrontier g dom b,
      y ∈ phiBlocks g dom v) ∧ ∀ y ∈ phiBlocks g dom v, Q y := by
  have hmem : ∀ b, b ∈ (List.range g.size).filter (g.Writes v) ↔ b < g.size ∧ g.Writes v b := by
    intro b
    simp
  have hok : Worklist.Ok g.size ⟨(List.range g.size).filter (g.Writes v), [],
      (List.range g.size).filter (g.Writes v)⟩ :=
    ⟨by simp, fun _ h => h, nodup_range.filter _, fun y hy => ((hmem y).1 hy).1⟩
  have hle := hok.length_le
  obtain ⟨h1, h2⟩ := run_spec (fun b y hy => mem_range.1 (mem_filter.1 hy).1)
    (fun b hb => hdefs b ((hmem b).1 hb).1 ((hmem b).1 hb).2) hQ (g.size + 1) _
    (by simp only at hle ⊢; omega) hok (fun b hb => .inl hb) (fun b hb => .inl hb) (by simp)
  exact ⟨fun b hb => h1 b (hb.imp_left (hmem b).2), h2⟩

theorem phiBlocks_closed {b y : ℕ} (hb : b < g.size ∧ g.Writes v b ∨ b ∈ phiBlocks g dom v)
    (hy : y ∈ dominanceFrontier g dom b) : y ∈ phiBlocks g dom v :=
  (phiBlocks_spec (Q := fun _ => True) (fun _ _ _ _ _ => trivial) fun _ _ _ _ =>
    trivial).1 b hb y hy

end Placement

/-! ## Chains in the dominator tree -/

section Chains

variable {g : Flow} {dom depth : ℕ → ℕ} {a b c p r stop : ℕ}

theorem Below.trans (h : Below dom a b) (h' : Below dom b c) : Below dom a c :=
  Relation.ReflTransGen.trans h' h

/-- Two blocks above a block are one above the other. -/
theorem Below.total (ha : Below dom a c) (hb : Below dom b c) : Below dom a b ∨ Below dom b a := by
  have hunique : Relator.RightUnique fun x y => x ≠ 0 ∧ dom x = y := fun _ _ _ h h' =>
    h.2.symm.trans h'.2
  exact (total_of_right_unique hunique ha hb).symm

theorem IsTree.depth_le (ht : IsTree g dom depth) (h : Below dom a b) (hb : b < g.size) :
    depth a ≤ depth b := by
  induction h with
  | refl => exact le_refl _
  | tail hcb hstep ih =>
    rw [← hstep.2]
    exact (ht.lt _ (ht.mem_of_below hcb hb) hstep.1).le.trans ih

/-- A block that is above another one, and not the same, is above its dominator. -/
theorem Below.above_dom (h : Below dom a b) (hne : a ≠ b) : b ≠ 0 ∧ Below dom a (dom b) := by
  obtain rfl | ⟨c, ⟨hb, rfl⟩, hc⟩ := cases_head h
  · exact absurd rfl hne
  · exact ⟨hb, hc⟩

theorem IsTree.antisymm (ht : IsTree g dom depth) (h : Below dom a b) (h' : Below dom b a)
    (hb : b < g.size) : a = b := by
  by_contra hne
  obtain ⟨hb0, hup⟩ := h.above_dom hne
  have h1 := ht.depth_le hup (ht.mem b hb)
  have h2 := ht.lt b hb hb0
  have h3 := ht.depth_le h' (ht.mem_of_below h hb)
  omega

/-- The blocks that a runner visits are those between a predecessor and the dominator. -/
theorem mem_runners (ht : IsTree g dom depth) : ∀ fuel p, p < g.size → depth p < fuel →
    Below dom stop p →
      (r ∈ runners dom stop fuel p ↔ Below dom r p ∧ Below dom stop r ∧ r ≠ stop) := by
  intro fuel
  induction fuel with
  | zero => exact fun p _ h => absurd h (by omega)
  | succ fuel ih =>
    intro p hp hfuel hstop
    rw [runners]
    by_cases hps : p = stop
    · rw [if_pos hps]
      refine ⟨fun h => absurd h (by simp), fun ⟨h1, h2, h3⟩ => ?_⟩
      rw [hps] at h1 hp
      exact absurd (ht.antisymm h1 h2 hp) h3
    obtain ⟨hp0, hup⟩ := hstop.above_dom (Ne.symm hps)
    have hlt := ht.lt p hp hp0
    have hne : dom p ≠ p := by
      intro h
      rw [h] at hlt
      exact lt_irrefl _ hlt
    rw [if_neg hps, if_neg hne, mem_cons, ih (dom p) (ht.mem p hp) (by omega) hup]
    constructor
    · rintro (rfl | ⟨h1, h2, h3⟩)
      · exact ⟨.refl, hstop, hps⟩
      · exact ⟨.head ⟨hp0, rfl⟩ h1, h2, h3⟩
    rintro ⟨h1, h2, h3⟩
    by_cases hrp : r = p
    · exact .inl hrp
    · exact .inr ⟨(h1.above_dom hrp).2, h2, h3⟩

/-- The frontier of `r`: the joins with a predecessor below `r` whose dominator is above `r` and not
`r`. -/
theorem mem_dominanceFrontier (hd : Dominates g dom depth) :
    b ∈ dominanceFrontier g dom r ↔ 2 ≤ (g.preds b).length ∧ b < g.size ∧
      ∃ p ∈ g.preds b, Below dom r p ∧ Below dom (dom b) r ∧ r ≠ dom b := by
  have hrun : ∀ p ∈ g.preds b, (r ∈ runners dom (dom b) (g.size + 2) p ↔
      Below dom r p ∧ Below dom (dom b) r ∧ r ≠ dom b) := by
    intro p hp
    obtain ⟨hp, hb⟩ := mem_preds.1 hp
    have hdepth := hd.le p
    refine mem_runners hd.toIsTree _ p hp (by omega) ?_
    by_cases hb0 : b = 0
    · rw [hb0, hd.root]
      exact hd.below hp
    · exact hd.above p hp b hb hb0
  unfold dominanceFrontier
  rw [mem_filter, mem_range, decide_eq_true_eq]
  constructor
  · rintro ⟨hb, h2, p, hp, hr⟩
    exact ⟨h2, hb, p, hp, (hrun p hp).1 hr⟩
  · rintro ⟨h2, hb, p, hp, hr⟩
    exact ⟨hb, h2, p, hp, (hrun p hp).2 hr⟩

end Chains

/-! ## Paths -/

/-- `Walk g b t`: a path from the start of the entry to that of block `b` executes the instructions
`t`. -/
inductive Walk (g : Flow) : ℕ → List Access → Prop
  | start : Walk g 0 []
  | step {p b t} : Walk g p t → b ∈ g.succs p → Walk g b (t ++ g.accs p)

/-- `Leg g a b t`: a path from the start of `a` to that of `b` that does not come to the entry
executes `t`. -/
inductive Leg (g : Flow) (a : ℕ) : ℕ → List Access → Prop
  | start : Leg g a a []
  | step {p b t} : Leg g a p t → b ∈ g.succs p → b ≠ 0 → Leg g a b (t ++ g.accs p)

section Paths

variable {g : Flow} {a b c : ℕ} {t t' : List Access} {v : Var}

theorem Walk.lt (hg : g.WF) (h0 : 0 < g.size) (h : Walk g b t) : b < g.size := by
  induction h with
  | start => exact h0
  | step _ hb ih => exact hg.succs_lt _ ih _ hb

theorem Leg.lt (hg : g.WF) (ha : a < g.size) (h : Leg g a b t) : b < g.size := by
  induction h with
  | start => exact ha
  | step _ hb _ ih => exact hg.succs_lt _ ih _ hb

/-- A path behind a path back to the entry. -/
theorem Walk.append (h : Walk g 0 t) (h' : Walk g b t') : Walk g b (t ++ t') := by
  induction h' with
  | start => rwa [append_nil]
  | step _ hb ih =>
    rw [← append_assoc]
    exact .step ih hb

theorem Leg.trans (h : Leg g a b t) (h' : Leg g b c t') : Leg g a c (t ++ t') := by
  induction h' with
  | start => rwa [append_nil]
  | step _ hb hb0 ih =>
    rw [← append_assoc]
    exact .step ih hb hb0

/-- The part of a path behind its last visit of the entry block. -/
theorem Walk.leg (h : Walk g b t) : ∃ t', Leg g 0 b t' := by
  induction h with
  | start => exact ⟨[], .start⟩
  | @step p b t _ hb ih =>
    obtain ⟨t', ht'⟩ := ih
    by_cases hb0 : b = 0
    · rw [hb0]
      exact ⟨[], .start⟩
    · exact ⟨_, .step ht' hb hb0⟩

/-- A path of at least one block starts with the instructions of its first block. -/
theorem Leg.head (h : Leg g a b t) : ∃ t', t ++ g.accs b = g.accs a ++ t' := by
  induction h with
  | start => exact ⟨[], by simp⟩
  | @step p b t _ _ _ ih =>
    obtain ⟨t', ht'⟩ := ih
    exact ⟨t' ++ g.accs b, by rw [ht', append_assoc]⟩

/-- A path to the entry block, cut at its first arrival there. -/
theorem exists_leg_of_reaches (h : Relation.TransGen (fun p b => b ∈ g.succs p) a 0) :
    ∃ p t, Leg g a p t ∧ 0 ∈ g.succs p := by
  induction h using Relation.TransGen.head_induction_on with
  | single h => exact ⟨_, [], .start, h⟩
  | @head d e hde _ ih =>
    obtain ⟨p, t, hleg, hp⟩ := ih
    by_cases he : e = 0
    · exact ⟨d, [], .start, he ▸ hde⟩
    · exact ⟨p, _, (Leg.step .start hde he).trans hleg, hp⟩

theorem Leg.reaches (h : Leg g a b t) : Relation.ReflTransGen (fun p b => b ∈ g.succs p) a b := by
  induction h with
  | start => exact .refl
  | step _ hb _ ih => exact .tail ih hb

/-- A block above another one in the dominator tree is on every path to it. -/
theorem Leg.through {dom depth : ℕ → ℕ} (hd : Dominates g dom depth) (hg : g.WF) (h0 : 0 < g.size)
    (h : Leg g 0 b t) (ha : Below dom a b) : ∃ t1 t2, Leg g 0 a t1 ∧ Leg g a b t2 := by
  induction h with
  | start =>
    have hzero : a = 0 := by
      by_contra hne
      exact (ha.above_dom hne).1 rfl
    rw [hzero]
    exact ⟨[], [], .start, .start⟩
  | @step p b t hleg hb hb0 ih =>
    by_cases hab : a = b
    · rw [hab]
      exact ⟨_, [], .step hleg hb hb0, .start⟩
    have hp := hleg.lt hg h0
    have hap := (ha.above_dom hab).2.trans (hd.above p hp b hb hb0)
    obtain ⟨t1, t2, h1, h2⟩ := ih hap
    exact ⟨t1, _, h1, .step h2 hb hb0⟩

theorem lastWrite_append_ne_none {as bs : List Access} :
    lastWrite v (as ++ bs) ≠ none ↔ lastWrite v as ≠ none ∨ lastWrite v bs ≠ none := by
  rw [lastWrite_append]
  cases lastWrite v bs <;> cases lastWrite v as <;> simp

end Paths

/-! ## Definitions along paths -/

section Sound

variable {g : Flow} {dom depth : ℕ → ℕ} {v : Var}

variable (hd : Dominates g dom depth)

include hd

omit hd in
theorem preds_eq_singleton {p b : ℕ} (hp : p ∈ g.preds b) (h2 : ¬2 ≤ (g.preds b).length) :
    g.preds b = [p] := by
  obtain ⟨q, hq⟩ : ∃ q, g.preds b = [q] := by
    refine List.length_eq_one_iff.1 ?_
    have := List.length_pos_of_mem hp
    omega
  rw [hq, List.mem_singleton] at hp
  rw [hq, hp]

/-- What is live at the start of a block without a phi function is live at the end of each
predecessor: the blocks up to the dominator have the block in their frontier, so none changes the
variable. -/
theorem liveOut_of_edge {p b : ℕ} (hp : p < g.size)
    (hb : b ∈ g.succs p) (hbs : b < g.size) (hb0 : b ≠ 0) (hphi : b ∉ phiBlocks g dom v) {d : Def}
    (h : LiveIn g dom (phiBlocks g dom) v b d) : LiveOut g dom (phiBlocks g dom) v p d := by
  have hpred : p ∈ g.preds b := mem_preds.2 ⟨hp, hb⟩
  have hdom : LiveOut g dom (phiBlocks g dom) v (dom b) d := by
    obtain ⟨h, -⟩ | ⟨-, h⟩ := before_of_liveIn hphi h
    · exact absurd h hb0
    · exact h
  by_cases h2 : 2 ≤ (g.preds b).length
  · have hclean : ∀ r, Below dom r p → Below dom (dom b) r → r ≠ dom b →
        r ∉ phiBlocks g dom v ∧ ¬g.Writes v r := by
      intro r hr hbr hne
      have hfront : b ∈ dominanceFrontier g dom r :=
        (mem_dominanceFrontier hd).2 ⟨h2, hbs, p, hpred, hr, hbr, hne⟩
      exact ⟨fun hr' => hphi (phiBlocks_closed (.inr hr') hfront),
        fun hw => hphi (phiBlocks_closed (.inl ⟨hd.mem_of_below hr hp, hw⟩) hfront)⟩
    -- Down the chain from the dominator to the predecessor.
    have hchain : ∀ r, Below dom (dom b) r → Below dom r p →
        LiveOut g dom (phiBlocks g dom) v r d := by
      intro r hbr
      refine head_induction_on hbr
        (motive := fun r _ => Below dom r p → LiveOut g dom (phiBlocks g dom) v r d)
        (fun _ => hdom) ?_
      intro r c hrc hcb ih hr
      obtain ⟨hr0, rfl⟩ := hrc
      have hbr' : Below dom (dom b) r := .head ⟨hr0, rfl⟩ hcb
      by_cases hne : r = dom b
      · rw [hne]
        exact hdom
      obtain ⟨hr1, hr2⟩ := hclean r hr hbr' hne
      refine .inr ⟨lastWrite_accs_eq_none.2 hr2, ?_⟩
      have hup : Below dom (dom r) r := .single ⟨hr0, rfl⟩
      exact liveIn_of_before hr1 (.inr ⟨hr0, ih (hup.trans hr)⟩)
    exact hchain p (hd.above p hp b hb hb0) .refl
  · -- A single predecessor is the dominator.
    rw [hd.single b hbs hb0 p (preds_eq_singleton hpred h2)] at hdom
    exact hdom

variable (hg : g.WF) (h0 : 0 < g.size)

include hg h0

/-- A definition of an instruction that is live at the start of a block is the last write on every
path to it. -/
theorem lastWrite_of_insn {b ip : ℕ} (hw : Walk g b t)
    (h : LiveIn g dom (phiBlocks g dom) v b (.insn ip v)) : lastWrite v t = some ip := by
  induction hw with
  | start => cases h with
    | write h _ _ => exact absurd rfl h
    | pass h _ _ _ => exact absurd rfl h
  | @step p b t hw hb ih =>
    have hp := hw.lt hg h0
    have hphi : b ∉ phiBlocks g dom v ∧ b ≠ 0 := by
      cases h with
      | write h1 h2 _ => exact ⟨h2, h1⟩
      | pass h1 h2 _ _ => exact ⟨h2, h1⟩
    rw [lastWrite_append]
    obtain ⟨ip', hip, heq⟩ | ⟨hnone, hlive⟩ :=
      liveOut_of_edge hd hp hb (hg.succs_lt p hp b hb) hphi.2 hphi.1 h
    · cases heq
      rw [hip]
      rfl
    · rw [hnone, ih hlive]
      rfl

omit h0 in
/-- If the definition of the entry is live at the start of a block, it is live at that of each
predecessor, which does not write the variable. -/
theorem liveIn_entry_of_edge {p : ℕ} (hp : p < g.size) (hb : b ∈ g.succs p) (hb0 : b ≠ 0)
    (h : LiveIn g dom (phiBlocks g dom) v b (.entry v)) :
    lastWrite v (g.accs p) = none ∧ LiveIn g dom (phiBlocks g dom) v p (.entry v) := by
  have hphi : b ∉ phiBlocks g dom v := by
    cases h with
    | entry h => exact h
    | pass _ h _ _ => exact h
  obtain ⟨_, _, heq⟩ | hlive := liveOut_of_edge hd hp hb (hg.succs_lt p hp b hb) hb0 hphi h
  · cases heq
  · exact hlive

/-- If the definition of the entry is live at the start of a block, no path that does not come back
to the entry writes the variable. -/
theorem lastWrite_of_entry (hw : Leg g 0 b t) (h : LiveIn g dom (phiBlocks g dom) v b (.entry v)) :
    lastWrite v t = none := by
  induction hw with
  | start => rfl
  | @step p b t hw hb hb0 ih =>
    obtain ⟨hnone, hlive⟩ := liveIn_entry_of_edge hd hg (hw.lt hg h0) hb hb0 h
    rw [lastWrite_append, hnone, ih hlive]
    rfl

/-- On a path that does come back, it may have written the variable there only. -/
theorem lastWrite_of_entry_of_clean (hclean : ∀ t, Walk g 0 t → lastWrite v t = none)
    (hw : Walk g b t) (h : LiveIn g dom (phiBlocks g dom) v b (.entry v)) :
    lastWrite v t = none := by
  induction hw with
  | start => rfl
  | @step p b t hw hb ih =>
    by_cases hb0 : b = 0
    · subst hb0
      exact hclean _ (.step hw hb)
    obtain ⟨hnone, hlive⟩ := liveIn_entry_of_edge hd hg (hw.lt hg h0) hb hb0 h
    rw [lastWrite_append, hnone, ih hlive]
    rfl

/-! ### Phi functions come from writes -/

/-- A block with a phi function is reached from a block other than the entry that writes the
variable, without coming to the entry. -/
theorem exists_write_of_phi (hreach : ∀ b < g.size, ∃ t, Walk g b t) :
    ∀ b ∈ phiBlocks g dom v, 2 ≤ (g.preds b).length ∧
      ∃ e, e < g.size ∧ e ≠ 0 ∧ g.Writes v e ∧ ∃ p t, Leg g e p t ∧ b ∈ g.succs p := by
  -- A frontier lets a path from a block above a predecessor go on to the join.
  have hstep : ∀ r b, b ∈ dominanceFrontier g dom r → 2 ≤ (g.preds b).length ∧ r < g.size ∧ r ≠ 0 ∧
      ∃ p t, Leg g r p t ∧ b ∈ g.succs p := by
    intro r b hb
    obtain ⟨h2, -, p, hp, hrp, hbr, hne⟩ := (mem_dominanceFrontier hd).1 hb
    obtain ⟨hp, hbp⟩ := mem_preds.1 hp
    have hr := hd.mem_of_below hrp hp
    refine ⟨h2, hr, ?_, ?_⟩
    · rintro rfl
      refine hne ?_
      by_contra h
      exact (hbr.above_dom (Ne.symm h)).1 rfl
    obtain ⟨t, hw⟩ := hreach p hp
    obtain ⟨t', hleg⟩ := hw.leg
    obtain ⟨-, t2, -, h2⟩ := hleg.through hd hg h0 hrp
    exact ⟨p, t2, h2, hbp⟩
  refine (phiBlocks_spec ?_ ?_).2
  · intro b hb hw y hy
    obtain ⟨h2, hbs, hb0, hleg⟩ := hstep b y hy
    exact ⟨h2, b, hbs, hb0, hw, hleg⟩
  · rintro b ⟨-, e, he, he0, hw, p, t, hleg, hbp⟩ y hy
    obtain ⟨h2, hbs, hb0, q, t', hleg', hyq⟩ := hstep b y hy
    exact ⟨h2, e, he, he0, hw, q, _, (Leg.step hleg hbp hb0).trans hleg', hyq⟩

/-- The entry has a phi function if it has several predecessors and another block that writes the
variable reaches it. On the way, some block above the current one, other than the entry, always
changes the variable. -/
theorem zero_mem_phiBlocks (h2 : 2 ≤ (g.preds 0).length) {e : ℕ} (he : e < g.size) (he0 : e ≠ 0)
    (hw : g.Writes v e) {p : ℕ} (hleg : Leg g e p t) (hp0 : 0 ∈ g.succs p) :
    0 ∈ phiBlocks g dom v := by
  have hactive : ∃ r, Below dom r p ∧ r ≠ 0 ∧ (g.Writes v r ∨ r ∈ phiBlocks g dom v) := by
    clear hp0
    induction hleg with
    | start => exact ⟨e, .refl, he0, .inl hw⟩
    | @step p b t hleg hb hb0 ih =>
      by_cases hphi : b ∈ phiBlocks g dom v
      · exact ⟨b, .refl, hb0, .inr hphi⟩
      obtain ⟨r, hrp, hr0, hr⟩ := ih
      have hp := hleg.lt hg he
      have hbs := hg.succs_lt p hp b hb
      have hpred : p ∈ g.preds b := mem_preds.2 ⟨hp, hb⟩
      have hup : Below dom (dom b) b := .single ⟨hb0, rfl⟩
      -- A block that is not above the dominator has the block in its frontier.
      have habove : Below dom r (dom b) := by
        by_cases hlen : 2 ≤ (g.preds b).length
        · obtain h | h := hrp.total (hd.above p hp b hb hb0)
          · exact h
          by_cases hne : r = dom b
          · rw [hne]
            exact .refl
          have hfront : b ∈ dominanceFrontier g dom r :=
            (mem_dominanceFrontier hd).2 ⟨hlen, hbs, p, hpred, hrp, h, hne⟩
          exact absurd (phiBlocks_closed (hr.imp_left fun h => ⟨hd.mem_of_below hrp hp, h⟩) hfront)
            hphi
        · rw [hd.single b hbs hb0 p (preds_eq_singleton hpred hlen)]
          exact hrp
      exact ⟨r, habove.trans hup, hr0, hr⟩
  obtain ⟨r, hrp, hr0, hr⟩ := hactive
  have hp := hleg.lt hg he
  have hrs := hd.mem_of_below hrp hp
  have hroot : dom 0 = 0 := hd.root
  have hfront : 0 ∈ dominanceFrontier g dom r := by
    refine (mem_dominanceFrontier hd).2 ⟨h2, h0, p, mem_preds.2 ⟨hp, hp0⟩, hrp, ?_, ?_⟩
    · rw [hroot]
      exact hd.below hrs
    · rwa [hroot]
  exact phiBlocks_closed (hr.imp_left fun h => ⟨hrs, h⟩) hfront

/-- The entry block joins several edges, and a block other than it that writes the variable reaches
it. -/
def EntryJoins (g : Flow) (v : Var) : Prop :=
  2 ≤ (g.preds 0).length ∧ ∃ e < g.size, e ≠ 0 ∧ g.Writes v e ∧
    Relation.TransGen (fun p b => b ∈ g.succs p) e 0

theorem zero_mem_phiBlocks_iff (hreach : ∀ b < g.size, ∃ t, Walk g b t) :
    0 ∈ phiBlocks g dom v ↔ EntryJoins g v := by
  constructor
  · intro h
    obtain ⟨h2, e, he, he0, hw, p, t, hleg, hp⟩ := exists_write_of_phi hd hg h0 hreach 0 h
    exact ⟨h2, e, he, he0, hw, .tail' hleg.reaches hp⟩
  · rintro ⟨h2, e, he, he0, hw, hpath⟩
    obtain ⟨p, t, hleg, hp⟩ := exists_leg_of_reaches hpath
    exact zero_mem_phiBlocks hd hg h0 h2 he he0 hw hleg hp

omit hd hg h0 in
/-- A path that leaves a block that writes a variable has a write of it. -/
theorem Leg.lastWrite_ne_none {e b : ℕ} (hleg : Leg g e b t) (hne : e ≠ b)
    (hw : g.Writes v e) : lastWrite v t ≠ none := by
  cases hleg with
  | start => exact absurd rfl hne
  | step hleg _ _ =>
    obtain ⟨t', ht'⟩ := hleg.head
    rw [ht', lastWrite_append_ne_none]
    exact .inl fun h => lastWrite_accs_eq_none.1 h hw

/-- The definition of the entry is live at the start of a block if the entry has no phi function and
no path that does not come back to it writes the variable. The induction goes up the dominator
tree. -/
theorem liveIn_entry_of_legs (hreach : ∀ b < g.size, ∃ t, Walk g b t) (hphi : 0 ∉ phiBlocks g dom v)
    (hb : b < g.size) (hlegs : ∀ t, Leg g 0 b t → lastWrite v t = none) :
    LiveIn g dom (phiBlocks g dom) v b (.entry v) := by
  induction hn : depth b using Nat.strong_induction_on generalizing b with
  | _ n ih =>
    by_cases hb0 : b = 0
    · rw [hb0]
      exact .entry hphi
    have hnophi : b ∉ phiBlocks g dom v := by
      intro h
      obtain ⟨-, e, he, -, hw, p, t, hleg, hp⟩ := exists_write_of_phi hd hg h0 hreach b h
      obtain ⟨t0, hw0⟩ := hreach e he
      obtain ⟨t1, hleg1⟩ := hw0.leg
      have hnone := hlegs _ (.step (hleg1.trans hleg) hp hb0)
      obtain ⟨t', ht'⟩ := hleg.head
      rw [append_assoc, ht'] at hnone
      refine lastWrite_append_ne_none.2 (.inr ?_) hnone
      exact lastWrite_append_ne_none.2 (.inl fun h => lastWrite_accs_eq_none.1 h hw)
    have hlt := hd.lt b hb hb0
    have hne : dom b ≠ b := by
      intro h
      rw [h] at hlt
      exact lt_irrefl _ hlt
    -- Every path to the block goes through its dominator, and on from there.
    obtain ⟨t, hwalk⟩ := hreach b hb
    obtain ⟨t0, hleg⟩ := hwalk.leg
    obtain ⟨t1, t2, h1, h2⟩ := hleg.through hd hg h0 (single ⟨hb0, rfl⟩)
    have hpass : ¬g.Writes v (dom b) := fun hw =>
      lastWrite_append_ne_none.2 (.inr (h2.lastWrite_ne_none hne hw)) (hlegs _ (h1.trans h2))
    refine .pass hb0 hnophi (lastWrite_accs_eq_none.2 hpass)
      (ih _ (hn ▸ hlt) (hd.mem b hb) (fun t ht => ?_) rfl)
    by_contra hwrite
    exact lastWrite_append_ne_none.2 (.inl hwrite) (hlegs _ (ht.trans h2))

omit hd hg h0 in
/-- The definition of the entry is live only where the entry block has no phi function. -/
theorem LiveIn.zero_notMem {u : Var} (h : LiveIn g dom phis v b (.entry u)) : 0 ∉ phis v := by
  generalize hd : Def.entry u = d at h
  induction h with
  | phi _ => cases hd
  | entry h => exact h
  | write _ _ _ => cases hd
  | pass _ _ _ _ ih => exact ih hd

/-- The variable of a definition. -/
def Def.var : Def → Var
  | .entry v | .phi _ v | .insn _ v => v

omit hd hg h0 in
/-- Every definition that is live for a variable is one of that variable. -/
theorem LiveAt.var_eq {pre : List Access} {d : Def} (h : LiveAt g dom phis v b pre d) :
    d.var = v := by
  obtain ⟨_, -, rfl⟩ | ⟨-, h⟩ := h
  · rfl
  · induction h with
    | phi | entry | write => rfl
    | pass _ _ _ _ ih => exact ih

/-- The answers for reads are right: a definition of an instruction is the last write on every path,
and with the definition of the entry no path has a write. -/
def UsesSound (g : Flow) (ssa : SsaInfo) : Prop :=
  ∀ b < g.size, ∀ pre a post, g.accs b = pre ++ a :: post → ∀ v ∈ a.reads,
    (∀ ip u, ssa.useAt a.ip v = some (.insn ip u) →
      u = v ∧ ∀ t, Walk g b t → lastWrite v (t ++ pre) = some ip) ∧
    ∀ u, ssa.useAt a.ip v = some (.entry u) →
      u = v ∧ ∀ t, Walk g b t → lastWrite v (t ++ pre) = none

/-- A path from the entry back to the entry block writes the variable. -/
def EntryRewritten (g : Flow) (v : Var) : Prop := ∃ t, Walk g 0 t ∧ lastWrite v t ≠ none

/-- Every read of the variable has a path that does not come back to the entry and writes the
variable. -/
def ReadsWritten (g : Flow) (v : Var) : Prop :=
  ∀ b < g.size, ∀ pre a post, g.accs b = pre ++ a :: post → v ∈ a.reads →
    ∃ t, Leg g 0 b t ∧ lastWrite v (t ++ pre) ≠ none

/-- One read, with the definition that is live there. -/
theorem useAt_sound_of {pre : List Access} {d : Def}
    (hlive : LiveAt g dom (phiBlocks g dom) v b pre d) :
    (∀ ip u, d = .insn ip u → u = v ∧ ∀ t, Walk g b t → lastWrite v (t ++ pre) = some ip) ∧
    ∀ u, d = .entry u → u = v ∧ ((∀ t, Leg g 0 b t → lastWrite v (t ++ pre) = none) ∧
      ((∀ t, Walk g 0 t → lastWrite v t = none) →
        ∀ t, Walk g b t → lastWrite v (t ++ pre) = none)) := by
  refine ⟨?_, ?_⟩
  · rintro ip u rfl
    obtain rfl : u = v := hlive.var_eq
    refine ⟨rfl, fun t ht => ?_⟩
    rw [lastWrite_append]
    obtain ⟨ip', hip, heq⟩ | ⟨hnone, hlive⟩ := hlive
    · cases heq
      rw [hip]
      rfl
    · rw [hnone, lastWrite_of_insn hd hg h0 ht hlive]
      rfl
  · rintro u rfl
    obtain rfl : u = v := hlive.var_eq
    obtain ⟨_, _, heq⟩ | ⟨hnone, hlive⟩ := hlive
    · cases heq
    refine ⟨rfl, fun t ht => ?_, fun hclean t ht => ?_⟩
    · rw [lastWrite_append, hnone, lastWrite_of_entry hd hg h0 ht hlive]
      rfl
    · rw [lastWrite_append, hnone, lastWrite_of_entry_of_clean hd hg h0 hclean ht hlive]
      rfl

/-- When the uses of the result of a dominator tree are sound. -/
theorem usesSound_ssaWith_iff (hreach : ∀ b < g.size, ∃ t, Walk g b t) :
    UsesSound g (g.ssaWith dom) ↔
      ∀ v, EntryRewritten g v → ¬EntryJoins g v → ReadsWritten g v := by
  have hphi := fun v => zero_mem_phiBlocks_iff (v := v) hd hg h0 hreach
  constructor
  · -- A read without such a path is given the definition of the entry, and the path back is wrong.
    intro hsound v ⟨t0, hwalk0, hwrite⟩ hjoin b hb pre a post haccs hread
    by_contra hnone
    have hlegs : ∀ t, Leg g 0 b t → lastWrite v (t ++ pre) = none := by
      intro t ht
      by_contra h
      exact hnone ⟨t, ht, h⟩
    obtain ⟨t, hwalk⟩ := hreach b hb
    obtain ⟨t1, hleg⟩ := hwalk.leg
    have hpre : lastWrite v pre = none := by
      by_contra h
      exact lastWrite_append_ne_none.2 (.inr h) (hlegs t1 hleg)
    have hlive : LiveIn g dom (phiBlocks g dom) v b (.entry v) := by
      refine liveIn_entry_of_legs hd hg h0 hreach (fun h => hjoin ((hphi v).1 h)) hb fun t ht => ?_
      by_contra h
      exact lastWrite_append_ne_none.2 (.inl h) (hlegs t ht)
    obtain ⟨d, huse, hd'⟩ := (useAt_renamed (u := v) (phiBlocks g dom) hg hd.toIsTree hb haccs).1
      hread
    rw [hd'.unique (.inr ⟨hpre, hlive⟩)] at huse
    have hwrong := ((hsound b hb pre a post haccs v hread).2 v huse).2 _ (hwalk0.append hwalk)
    rw [append_assoc] at hwrong
    exact lastWrite_append_ne_none.2 (.inl hwrite) hwrong
  · intro hcond b hb pre a post haccs v hread
    obtain ⟨d, huse, hlive⟩ :=
      (useAt_renamed (u := v) (phiBlocks g dom) hg hd.toIsTree hb haccs).1 hread
    have huse' : (g.ssaWith dom).useAt a.ip v = some d := huse
    obtain ⟨hinsn, hentry⟩ := useAt_sound_of hd hg h0 hlive
    refine ⟨fun ip u h => hinsn ip u ?_, fun u h => ?_⟩
    · rw [huse', Option.some.injEq] at h
      exact h
    rw [huse', Option.some.injEq] at h
    subst h
    obtain ⟨rfl, hlegs, hwalks⟩ := hentry u rfl
    refine ⟨rfl, hwalks fun t0 ht0 => ?_⟩
    by_contra hwrite
    have hnojoin : ¬EntryJoins g u := by
      rw [← hphi u]
      obtain ⟨_, _, heq⟩ | ⟨-, hlive⟩ := hlive
      · cases heq
      exact hlive.zero_notMem
    obtain ⟨t, hleg, hne⟩ := hcond u ⟨t0, ht0, hwrite⟩ hnojoin b hb pre a post haccs hread
    exact hne (hlegs t hleg)

end Sound

/-- Every block is reachable in the sense of the order of the pass. -/
theorem Walk.mem_reversePostorder {g : Flow} (hg : g.WF) (h0 : 0 < g.size) (h : Walk g b t) :
    b ∈ reversePostorder g.size g.succs := by
  have horder := order_reversePostorder hg.succs_lt h0
  induction h with
  | start =>
    obtain ⟨rest, hrest⟩ := horder.head
    rw [hrest]
    exact mem_cons_self
  | step _ hb ih => exact horder.closed _ ih _ hb

/-- Where every block is reachable, the answers for reads are right exactly where each variable that
a path back to the entry block writes has its phi function there, or has only reads that are also
reached from a write without a visit of the entry block. -/
theorem usesSound_iff {ι : Type} [ArchInsn ι] {checks : Bool} {f : Func ι}
    {rw : ι → List Var × List Var} {g : Flow} (hflow : f.flow checks rw = some g)
    (hreach : ∀ b < g.size, ∃ t, Walk g b t) :
    ∃ ssa, buildSsa checks f rw = some ssa ∧
      (UsesSound g ssa ↔ ∀ v, EntryRewritten g v → ¬EntryJoins g v → ReadsWritten g v) := by
  have hg := flow_wf hflow
  by_cases hsize : g.size = 0
  · refine ⟨.empty, ?_, fun _ v _ _ b hb => ?_, fun _ b hb => ?_⟩
    · rw [buildSsa, hflow, Option.bind_eq_bind, Option.bind_some, Flow.ssa, if_pos hsize]
    · omega
    · omega
  have h0 : 0 < g.size := Nat.pos_of_ne_zero hsize
  obtain ⟨dom, depth, hdom, -, hd⟩ := computeDominators_spec hg h0
  have hd := hd fun b hb => by
    obtain ⟨t, ht⟩ := hreach b hb
    exact ht.mem_reversePostorder hg h0
  refine ⟨g.ssaWith dom, ?_, usesSound_ssaWith_iff hd hg h0 hreach⟩
  rw [buildSsa, hflow, Option.bind_eq_bind, Option.bind_some, Flow.ssa, if_neg hsize, hdom]
  rfl

/-- No path of `diamond` comes back to its entry block, so that all its answers are right. -/
theorem usesSound_diamond : ∃ g ssa, diamond.flow true Access.rw = some g ∧
    (∀ b < g.size, ∃ t, Walk g b t) ∧ buildSsa true diamond Access.rw = some ssa ∧
      UsesSound g ssa := by
  have hreach : ∀ b < diamondFlow.size, ∃ t, Walk diamondFlow b t := by
    have h0 : Walk diamondFlow 0 [] := .start
    have h1 : Walk diamondFlow 1 _ := .step h0 (by decide)
    intro b hb
    match b with
    | 0 => exact ⟨_, h0⟩
    | 1 => exact ⟨_, h1⟩
    | 2 => exact ⟨_, .step h0 (by decide)⟩
    | 3 => exact ⟨_, .step h1 (by decide)⟩
    | b + 4 =>
      have : diamondFlow.size = 4 := rfl
      omega
  have hzero : ∀ p, 0 ∉ diamondFlow.succs p := by
    intro p
    match p with
    | 0 | 1 | 2 | 3 => decide
    | _ + 4 => exact List.not_mem_nil
  obtain ⟨ssa, hssa, hiff⟩ := usesSound_iff flow_diamond hreach
  refine ⟨diamondFlow, ssa, flow_diamond, hreach, hssa, hiff.2 fun v hv => ?_⟩
  obtain ⟨t, ht, hwrite⟩ := hv
  cases ht with
  | start => exact absurd rfl hwrite
  | step _ h => exact absurd h (hzero _)

/-- A block that reads a variable, writes it and jumps back to its start. -/
def selfLoop : Func Access where
  blocks := [⟨0, [⟨0, [.memory], []⟩, ⟨1, [], [.memory]⟩], .unconditionalBranch 0⟩]
  addrs_nodup := by decide

/-- The read is given the value at the entry, although the path around the loop writes the
variable. -/
theorem not_usesSound_selfLoop : ∃ g ssa, selfLoop.flow true Access.rw = some g ∧
    (∀ b < g.size, ∃ t, Walk g b t) ∧ buildSsa true selfLoop Access.rw = some ssa ∧
      ssa.useAt 0 .memory = some (.entry .memory) ∧ ¬UsesSound g ssa := by
  obtain ⟨g, hg⟩ : ∃ g, selfLoop.flow true Access.rw = some g := ⟨_, rfl⟩
  have hsize : g.size = 1 := by
    cases hg
    rfl
  have hsucc : g.succs 0 = [0] := by
    cases hg
    rfl
  have haccs : g.accs 0 = [] ++ ⟨0, [.memory], []⟩ :: [⟨1, [], [.memory]⟩] := by
    cases hg
    rfl
  have huse : (buildSsa true selfLoop Access.rw).bind (fun ssa => ssa.useAt 0 .memory) =
      some (.entry .memory) := by
    decide
  obtain ⟨ssa, hssa, huse⟩ := Option.bind_eq_some_iff.1 huse
  refine ⟨g, ssa, hg, fun b hb => ?_, hssa, huse, fun hsound => ?_⟩
  · obtain rfl : b = 0 := by omega
    exact ⟨[], .start⟩
  -- Once around the loop.
  have hwalk : Walk g 0 ([] ++ g.accs 0) := .step .start (by rw [hsucc]; exact List.mem_cons_self)
  have hnone := ((hsound 0 (by omega) _ _ _ haccs .memory (by simp)).2 .memory huse).2 _ hwalk
  rw [haccs] at hnone
  exact absurd hnone (by decide)

end Univdreams.Ir
