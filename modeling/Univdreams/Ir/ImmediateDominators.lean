import Univdreams.Ir.Reaching

/-!
# Immediate dominators

What `compute_dominators` of `src/ir/ssa.rs` returns, in terms of the paths of the flow graph. The
iteration ends in a tree in which the parent of a block is the nearest common ancestor of its
predecessors. The ancestors of a block are then on every path to it, by induction over the path.
That nothing else is on every path to it does not follow from where the iteration ends, as a graph
with loops has other trees of this kind: it follows from where it starts. In the first tree all
blocks on every path are ancestors, and no move loses one of them.
-/

namespace Univdreams.Ir

open Univdreams.ParentMap

/-! ## Paths from the entry -/

/-- A path from the entry, as the list of its blocks, the last one first. -/
inductive PathTo (succs : ℕ → List ℕ) : ℕ → List ℕ → Prop where
  | entry : PathTo succs 0 [0]
  | step {p c : ℕ} {blocks : List ℕ} : PathTo succs p blocks → c ∈ succs p →
      PathTo succs c (c :: blocks)

variable (succs : ℕ → List ℕ)

/-- Some path leads to the block. -/
def Reachable (b : ℕ) : Prop := ∃ blocks, PathTo succs b blocks

/-- `x` dominates `b`: it is on every path to it. -/
def OnEveryPath (x b : ℕ) : Prop :=
  ∀ blocks, PathTo succs b blocks → x ∈ blocks

/-- A dominator of `b` other than `b`. -/
def StrictDominator (x b : ℕ) : Prop := OnEveryPath succs x b ∧ x ≠ b

/-- The strict dominator of `b` that all strict dominators of `b` dominate. -/
def ImmediateDominator (d b : ℕ) : Prop :=
  StrictDominator succs d b ∧ ∀ x, StrictDominator succs x b → OnEveryPath succs x d

/-- A dominator of a block, other than the block, dominates its predecessors. -/
theorem OnEveryPath.pred {succs : ℕ → List ℕ} {x c p : ℕ} (h : OnEveryPath succs x c) (hne : x ≠ c)
    (hp : c ∈ succs p) : OnEveryPath succs x p := by
  intro blocks hblocks
  have hmem := h _ (hblocks.step hp)
  exact (List.mem_cons.1 hmem).resolve_left hne

theorem handedDown_onEveryPath {n : ℕ} {succs preds : ℕ → List ℕ}
    (hpreds : ∀ p b, p ∈ preds b ↔ p < n ∧ b ∈ succs p) :
    HandedDown preds (OnEveryPath succs) where
  root x h := by simpa using h [0] .entry
  pred x c p h hne hp := h.pred hne ((hpreds p c).1 hp).2

/-! ## The blocks in reverse postorder -/

section Order

variable {n : ℕ} {succs : ℕ → List ℕ} {rpo : List ℕ}

theorem Order.mem_of_path (h : Order succs rpo) {b : ℕ} {blocks : List ℕ}
    (hb : PathTo succs b blocks) : b ∈ rpo := by
  induction hb with
  | entry =>
    obtain ⟨rest, hrest⟩ := h.head
    simp [hrest]
  | step _ hc ih => exact h.closed _ ih _ hc

end Order

/-! ## Ancestors and dominators -/

section Tree

variable {n : ℕ} {succs preds : ℕ → List ℕ} {rpo : List ℕ} {D : Parents ℕ}

/-- The ancestors of a block in the tree are on every path to it. -/
theorem DomTree.onEveryPath (h : DomTree succs preds rpo D) (horder : Order succs rpo)
    (hpreds : ∀ p b, p ∈ preds b ↔ p < n ∧ b ∈ succs p) (hlt : ∀ c ∈ rpo, c < n) {x b : ℕ}
    (hx : Anc D x b) : OnEveryPath succs x b := by
  intro blocks hblocks
  induction hblocks with
  | entry => simp [h.ranked.eq_root hx]
  | @step p c blocks hp hc ih =>
    have hpm := horder.mem_of_path hp
    have hcm := horder.closed p hpm c hc
    obtain rfl | ⟨d, hd, hxd⟩ := hx.cases
    · simp
    by_cases hc0 : c = 0
    · subst hc0
      simp [h.ranked.eq_root hx]
    -- The parent is an ancestor of the block before the last one.
    obtain ⟨d', hd', hnear⟩ := h.nearest c hcm hc0
    rw [hd, Option.some.injEq] at hd'
    subst hd'
    have hdp := (hnear.1 d).1 (.refl D d) p ((hpreds p c).2 ⟨hlt p hpm, hc⟩) ((h.known p).2 hpm)
    exact List.mem_cons_of_mem c (ih (hxd.trans hdp))

/-- The parent of a block is its immediate dominator, and its only one. -/
theorem DomTree.immediateDominator_iff (h : DomTree succs preds rpo D)
    (hdom : ∀ x u, Known D u → (OnEveryPath succs x u ↔ Anc D x u)) {b d : ℕ} (hd : D b = some d)
    (hb0 : b ≠ 0) (d' : ℕ) : ImmediateDominator succs d' b ↔ d' = d := by
  have hR := h.ranked
  have hb : Known D b := by
    rw [Known, hd]
    rfl
  have hdk : Known D d := hR.known hd
  have hlt := hR.lt hd hb0
  have hstrict : ∀ x, StrictDominator succs x b ↔ Anc D x d := by
    intro x
    rw [StrictDominator, hdom x b hb]
    constructor
    · rintro ⟨hx, hne⟩
      obtain hx | ⟨e, he, hx⟩ := hx.cases
      · exact absurd hx hne
      · rw [hd, Option.some.injEq] at he
        exact he ▸ hx
    intro hx
    refine ⟨.of_parent hd hx, ?_⟩
    rintro rfl
    have := hR.anc_rank hx
    omega
  constructor
  · rintro ⟨hd', hall⟩
    have hd'd := (hstrict d').1 hd'
    have hk := hd'd.known_left hR hdk
    have hdd' := (hdom d d' hk).1 (hall d ((hstrict d).2 (.refl D d)))
    exact hR.anc_eq hd'd hdk (hR.anc_rank hdd')
  · rintro rfl
    exact ⟨(hstrict d').2 (.refl D d'), fun x hx => (hdom x d' hdk).2 ((hstrict x).1 hx)⟩

end Tree

/-- **Dominators are computed correctly.** For every flow graph with a block, the iteration ends,
and what it returns for a block that is reachable from block 0, other than block 0, is the one
immediate dominator of the block. -/
theorem computeDominators_immediate (g : Flow) (hsize : 0 < g.size)
    (hsuccs : ∀ b < g.size, ∀ s ∈ g.succs b, s < g.size) :
    ∃ dom, computeDominators g.size g.succs g.preds = some dom ∧
      ∀ b, Reachable g.succs b → b ≠ 0 → ∀ d, ImmediateDominator g.succs d b ↔ d = dom b := by
  have horder := order_reversePostorder hsuccs hsize
  have hlt := horder.lt hsuccs hsize
  have hpreds : ∀ p b, p ∈ g.preds b ↔ p < g.size ∧ b ∈ g.succs p := fun p b => Flow.mem_preds
  obtain ⟨D, hD, htree, hkeeps⟩ := domTree_keeps hsuccs hsize hpreds
  have hdom : ∀ x u, Known D u → (OnEveryPath g.succs x u ↔ Anc D x u) := fun x u hu =>
    ⟨hkeeps _ (handedDown_onEveryPath hpreds) x u hu, htree.onEveryPath horder hpreds hlt⟩
  refine ⟨fun b => (D b).getD 0, by rw [computeDominators, hD]; rfl, fun b hb hb0 d => ?_⟩
  obtain ⟨blocks, hblocks⟩ := hb
  obtain ⟨e, he, -⟩ := htree.nearest b (horder.mem_of_path hblocks) hb0
  rw [htree.immediateDominator_iff hdom he hb0 d]
  show d = e ↔ d = (D b).getD 0
  rw [he, Option.getD_some]

/-- A loop through blocks 1 and 2 that is entered at both of them, and left from block 1 to
block 3. -/
def irreducible : Flow where
  size := 4
  succs b := [[1, 2], [2, 3], [1], []].getD b []
  accs _ := []

/-- In it, block 1 is the immediate dominator of block 3, and block 0 the one of block 1. -/
theorem computeDominators_immediate_irreducible :
    ImmediateDominator irreducible.succs 1 3 ∧ ImmediateDominator irreducible.succs 0 1 := by
  have hsuccs : ∀ b < irreducible.size, ∀ s ∈ irreducible.succs b, s < irreducible.size := by decide
  obtain ⟨dom, hdom, h⟩ := computeDominators_immediate irreducible (by decide) hsuccs
  have hvals : (computeDominators irreducible.size irreducible.succs irreducible.preds).map
      (fun dom => (dom 3, dom 1)) = some (1, 0) := by decide
  rw [hdom, Option.map_some, Option.some.injEq, Prod.mk.injEq] at hvals
  have h1 : PathTo irreducible.succs 1 [1, 0] := .step .entry (by decide)
  have h3 : PathTo irreducible.succs 3 [3, 1, 0] := .step h1 (by decide)
  exact ⟨(h 3 ⟨_, h3⟩ (by decide) 1).2 hvals.1.symm, (h 1 ⟨_, h1⟩ (by decide) 0).2 hvals.2.symm⟩

end Univdreams.Ir
