import Univdreams.ParentMap

/-!
# Dominators of a flow graph

The graph part of `src/ir/ssa.rs`: `reverse_postorder`, `intersect` and `compute_dominators`, the
iteration of Cooper, Harvey and Kennedy. A graph is given by the successors of its blocks, which are
numbered, with block 0 the entry.

The iteration stops, whatever the graph. One pass visits the blocks in reverse postorder and moves
each to the nearest common ancestor of its predecessors in the current tree. The ancestors of a
block only ever get fewer, so that every move is to an ancestor of the old parent. Where it stops,
the parent of a block is an ancestor of each of its predecessors, which is all that renaming needs.
-/

namespace Univdreams.Ir

open Univdreams.ParentMap List Function

variable {succs : ℕ → List ℕ} {rpo : List ℕ}

/-! ## Reverse postorder -/

/-- `rpo_dfs`: the blocks visited and left, in order. The number bounds the depth. -/
def rpoDfs (succs : ℕ → List ℕ) : ℕ → ℕ → List ℕ × List ℕ → List ℕ × List ℕ
  | 0, _, st => st
  | fuel + 1, b, (visited, post) =>
    if b ∈ visited then (visited, post)
    else
      let (visited, post) := (succs b).foldl (fun st s => rpoDfs succs fuel s st)
        (b :: visited, post)
      (visited, post ++ [b])

/-- `reverse_postorder`, of a graph with `n` blocks. -/
def reversePostorder (n : ℕ) (succs : ℕ → List ℕ) : List ℕ :=
  (rpoDfs succs (n + 1) 0 ([], [])).2.reverse

/-- `rpo_index.get`, one more than the index of a block. One without an index is below all others,
as `None` is. -/
def rpoIndex (rpo : List ℕ) (b : ℕ) : ℕ := if b ∈ rpo then rpo.idxOf b + 1 else 0

/-! ## The iteration -/

/-- An inner loop of `intersect`: the parents of `f` as long as their index is above the one of
`g`. -/
def climb (rank : ℕ → ℕ) (dom : Parents ℕ) (g : ℕ) : ℕ → ℕ → Option ℕ
  | 0, f => if rank g < rank f then none else some f
  | fuel + 1, f => if rank g < rank f then climb rank dom g fuel ((dom f).getD f) else some f

/-- `intersect`. The numbers bound the inner loops and the outer loop. -/
def intersect (rank : ℕ → ℕ) (dom : Parents ℕ) (size : ℕ) : ℕ → ℕ → ℕ → Option ℕ
  | 0, _, _ => none
  | fuel + 1, f1, f2 =>
    if f1 = f2 then some f1
    else do
      let f1 ← climb rank dom f2 size f1
      let f2 ← climb rank dom f1 size f2
      if f1 = 0 ∧ f2 = 0 then return 0
      intersect rank dom size fuel f1 f2

/-- The inner loop of `compute_dominators`: the new parent of a block, and whether anything
changed. -/
def updateDom (preds : ℕ → List ℕ) (rank : ℕ → ℕ) (size : ℕ) (st : Parents ℕ × Bool) (b : ℕ) :
    Option (Parents ℕ × Bool) :=
  match (preds b).filter fun p => (st.1 p).isSome with
  | [] => some st
  | p :: rest => do
    let newIdom ← rest.foldlM (intersect rank st.1 size (2 * size + 1)) p
    if st.1 b ≠ some newIdom then some (Function.update st.1 b (some newIdom), true) else some st

/-- The loop of `compute_dominators` until nothing changes. -/
def domLoop (preds : ℕ → List ℕ) (rank : ℕ → ℕ) (size : ℕ) (order : List ℕ) :
    ℕ → Parents ℕ → Option (Parents ℕ)
  | 0, _ => none
  | fuel + 1, dom => do
    let (dom, changed) ← order.foldlM (updateDom preds rank size) (dom, false)
    if changed then domLoop preds rank size order fuel dom else return dom

/-- `compute_dominators` before the blocks without a dominator get block 0. -/
def domTree (n : ℕ) (succs preds : ℕ → List ℕ) : Option (Parents ℕ) :=
  let rpo := reversePostorder n succs
  domLoop preds (rpoIndex rpo) (n + 1) (rpo.drop 1) (n * (n + 2) + 1)
    (Function.update (fun _ => none) 0 (some 0))

/-- `compute_dominators`. -/
def computeDominators (n : ℕ) (succs preds : ℕ → List ℕ) : Option (ℕ → ℕ) := do
  let dom ← domTree n succs preds
  return fun b => (dom b).getD 0

/-! ## Reverse postorder lists a spanning tree -/

/-- A list left below a block: every other block has a predecessor further on, and the last one is
the block. -/
def Spans (succs : ℕ → List ℕ) (b : ℕ) (new : List ℕ) : Prop :=
  ∃ init, new = init ++ [b] ∧ ∀ pre c post, init = pre ++ c :: post →
    ∃ p ∈ post ++ [b], c ∈ succs p

/-- The blocks that a loop over successors leaves. -/
def SpansAll (succs : ℕ → List ℕ) (ss new : List ℕ) : Prop :=
  ∀ pre c post, new = pre ++ c :: post → c ∈ ss ∨ ∃ p ∈ post, c ∈ succs p

/-- Lists that span the same successors span them together. -/
theorem SpansAll.append {ss new new' : List ℕ} (h : SpansAll succs ss new)
    (h' : SpansAll succs ss new') : SpansAll succs ss (new ++ new') := by
  intro pre c post heq
  obtain ⟨mid, h1, h2⟩ | ⟨mid, h1, h2⟩ := append_eq_append_iff.1 heq
  · -- The block is in the second part.
    exact h' mid c post h2
  cases mid with
  | nil =>
    rw [nil_append] at h2
    exact h' [] c post h2.symm
  | cons c' mid =>
    obtain ⟨rfl, rfl⟩ := List.cons.inj h2
    obtain hc | ⟨p, hp, hc⟩ := h pre c mid h1
    · exact .inl hc
    · exact .inr ⟨p, by simp [hp], hc⟩

/-- A list that spans one of the successors spans them. -/
theorem SpansAll.of_spans {ss new : List ℕ} {s : ℕ} (hs : s ∈ ss)
    (h : Spans succs s new) : SpansAll succs ss new := by
  obtain ⟨init, rfl, hinit⟩ := h
  intro pre c post heq
  obtain ⟨mid, h1, h2⟩ | ⟨mid, h1, h2⟩ := append_eq_append_iff.1 heq
  · cases mid with
    | nil =>
      obtain ⟨rfl, rfl⟩ := List.cons.inj h2
      exact .inl hs
    | cons c' mid => simp at h2
  cases mid with
  | nil =>
    rw [nil_append] at h2
    obtain ⟨rfl, -⟩ := List.cons.inj h2
    exact .inl hs
  | cons c' mid =>
    obtain ⟨rfl, rfl⟩ := List.cons.inj h2
    obtain ⟨p, hp, hc⟩ := hinit pre c mid h1
    exact .inr ⟨p, hp, hc⟩

/-- The blocks that were not visited. -/
def unvisited (n : ℕ) (visited : List ℕ) : ℕ := ((List.range n).filter (· ∉ visited)).length

theorem unvisited_le {n : ℕ} {visited visited' : List ℕ} (h : visited ⊆ visited') :
    unvisited n visited' ≤ unvisited n visited := by
  refine List.Sublist.length_le ?_
  refine monotone_filter_right _ fun x hx => ?_
  simp only [decide_eq_true_eq] at hx ⊢
  exact fun hv => hx (h hv)

theorem unvisited_cons {n b : ℕ} {visited : List ℕ} (hb : b < n) (hv : b ∉ visited) :
    unvisited n (b :: visited) < unvisited n visited := by
  unfold unvisited
  have hsub : ((List.range n).filter (· ∉ b :: visited)) =
      ((List.range n).filter (· ∉ visited)).filter (· ≠ b) := by
    rw [filter_filter]
    refine filter_congr fun x _ => ?_
    simp
  rw [hsub, length_filter_lt_length_iff_exists]
  exact ⟨b, by simp [hb, hv], by simp⟩

/-- What a search adds to the visited blocks: every block once, and with it its successors. -/
structure Visit (succs : ℕ → List ℕ) (visited visited' new : List ℕ) : Prop where
  mem : ∀ x, x ∈ visited' ↔ x ∈ visited ∨ x ∈ new
  nodup : new.Nodup
  fresh : ∀ x ∈ new, x ∉ visited
  closed : ∀ c ∈ new, ∀ s ∈ succs c, s ∈ visited'

theorem Visit.subset {visited visited' new : List ℕ}
    (h : Visit succs visited visited' new) : visited ⊆ visited' := fun x hx => (h.mem x).2 (.inl hx)

/-- One search after the other. -/
theorem Visit.trans {v1 v2 v3 new new' : List ℕ} (h : Visit succs v1 v2 new)
    (h' : Visit succs v2 v3 new') : Visit succs v1 v3 (new ++ new') where
  mem x := by rw [h'.mem, h.mem, mem_append, or_assoc]
  nodup := by
    refine nodup_append.2 ⟨h.nodup, h'.nodup, fun x hx y hy hxy => ?_⟩
    exact h'.fresh y hy (h.mem y |>.2 (.inr (hxy ▸ hx)))
  fresh x hx hv := by
    obtain hx | hx := mem_append.1 hx
    · exact h.fresh x hx hv
    · exact h'.fresh x hx (h.subset hv)
  closed c hc s hs := by
    obtain hc | hc := mem_append.1 hc
    · exact h'.subset (h.closed c hc s hs)
    · exact h'.closed c hc s hs

/-- A search visits its block, and leaves what it visits. -/
theorem rpoDfs_spec {n : ℕ} (hn : ∀ b < n, ∀ s ∈ succs b, s < n) :
    ∀ fuel b visited post, b < n → unvisited n visited < fuel →
      ∃ visited' new, rpoDfs succs fuel b (visited, post) = (visited', post ++ new) ∧
        Visit succs visited visited' new ∧ b ∈ visited' ∧ (b ∉ visited → Spans succs b new) ∧
          (b ∈ visited → new = []) := by
  intro fuel
  induction fuel with
  | zero => exact fun b visited post _ h => absurd h (by omega)
  | succ fuel ih =>
    intro b visited post hb hfuel
    by_cases hv : b ∈ visited
    · refine ⟨visited, [], by simp [rpoDfs, hv], ⟨by simp, by simp, by simp, by simp⟩, hv,
        fun h => absurd hv h, fun _ => rfl⟩
    -- The loop over the successors, each of which has the fuel that it needs.
    have hloop : ∀ ss : List ℕ, (∀ s ∈ ss, s < n) → ∀ visited post, unvisited n visited < fuel →
        ∃ visited' new, ss.foldl (fun st s => rpoDfs succs fuel s st) (visited, post) =
          (visited', post ++ new) ∧ Visit succs visited visited' new ∧ ss ⊆ visited' ∧
            SpansAll succs ss new := by
      intro ss
      induction ss with
      | nil =>
        refine fun _ visited post _ => ⟨visited, [], by simp, ⟨by simp, by simp, by simp, by simp⟩,
          by simp, ?_⟩
        intro pre c post heq
        simp at heq
      | cons s ss ihs =>
        intro hss visited post hf
        obtain ⟨v1, n1, h1, hvisit1, hs1, hspan1, hnil1⟩ := ih s visited post (hss s (by simp)) hf
        obtain ⟨v2, n2, h2, hvisit2, hss2, hspan2⟩ := ihs (fun t ht => hss t (by simp [ht])) v1
          (post ++ n1) (lt_of_le_of_lt (unvisited_le hvisit1.subset) hf)
        refine ⟨v2, n1 ++ n2, ?_, hvisit1.trans hvisit2, ?_, ?_⟩
        · rw [foldl_cons, h1, h2, append_assoc]
        · intro t ht
          obtain rfl | ht := mem_cons.1 ht
          · exact hvisit2.subset hs1
          · exact hss2 ht
        have hmono : SpansAll succs (s :: ss) n2 := by
          intro pre c post heq
          obtain hc | hc := hspan2 pre c post heq
          · exact .inl (by simp [hc])
          · exact .inr hc
        by_cases hs : s ∈ visited
        · rw [hnil1 hs, nil_append]
          exact hmono
        · exact (SpansAll.of_spans (by simp) (hspan1 hs)).append hmono
    have hfuel' : unvisited n (b :: visited) < fuel := by
      have := unvisited_cons hb hv
      omega
    obtain ⟨v, new, hfold, hvisit, hsub, hspan⟩ :=
      hloop (succs b) (hn b hb) (b :: visited) post hfuel'
    refine ⟨v, new ++ [b], ?_, ?_, hvisit.subset (by simp), fun _ => ⟨new, rfl, ?_⟩,
      fun h => absurd h hv⟩
    · simp only [rpoDfs, if_neg hv, hfold, append_assoc]
    · have hbnew : b ∉ new := fun h => hvisit.fresh b h (by simp)
      refine ⟨fun x => ?_, ?_, fun x hx => ?_, fun c hc s hs => ?_⟩
      · rw [hvisit.mem]
        simp only [mem_cons, mem_append, not_mem_nil, or_false]
        tauto
      · refine nodup_append.2 ⟨hvisit.nodup, by simp, fun x hx y hy hxy => hbnew ?_⟩
        rw [mem_singleton] at hy
        rwa [← hy, ← hxy]
      · obtain hx | hx := mem_append.1 hx
        · exact fun h => hvisit.fresh x hx (by simp [h])
        · rw [mem_singleton] at hx
          rwa [hx]
      · obtain hc | hc := mem_append.1 hc
        · exact hvisit.closed c hc s hs
        · rw [mem_singleton] at hc
          exact hsub (hc ▸ hs)
    · intro pre c post' heq
      obtain hc | ⟨p, hp, hc⟩ := hspan pre c post' heq
      · exact ⟨b, by simp, hc⟩
      · exact ⟨p, by simp [hp], hc⟩

section Order

variable {n : ℕ} {succs : ℕ → List ℕ}

/-- The order starts with the entry, lists a block once, is closed under successors, and every other
block has a predecessor further up. -/
structure Order (succs : ℕ → List ℕ) (rpo : List ℕ) : Prop where
  head : ∃ rest, rpo = 0 :: rest
  nodup : rpo.Nodup
  closed : ∀ c ∈ rpo, ∀ s ∈ succs c, s ∈ rpo
  forward : ∀ c ∈ rpo.drop 1, ∃ p ∈ rpo, c ∈ succs p ∧ rpoIndex rpo p < rpoIndex rpo c

/-- The reverse postorder is an order. -/
theorem order_reversePostorder (hn : ∀ b < n, ∀ s ∈ succs b, s < n) (h0 : 0 < n) :
    Order succs (reversePostorder n succs) := by
  have hfuel : unvisited n [] < n + 1 := by
    have : unvisited n [] ≤ (List.range n).length := length_filter_le _ _
    rw [length_range] at this
    omega
  obtain ⟨v, new, hdfs, hvisit, -, hspan, -⟩ := rpoDfs_spec hn (n + 1) 0 [] [] h0 hfuel
  obtain ⟨init, rfl, hinit⟩ := hspan (by simp)
  have hrpo : reversePostorder n succs = 0 :: init.reverse := by
    rw [reversePostorder, hdfs]
    simp
  have hmem : ∀ x, x ∈ v ↔ x ∈ 0 :: init.reverse := by
    intro x
    rw [hvisit.mem]
    simp only [not_mem_nil, false_or, mem_append, mem_cons, mem_reverse]
    tauto
  have hnodup : (0 :: init.reverse).Nodup := by
    have := nodup_reverse.2 hvisit.nodup
    rwa [reverse_append] at this
  rw [hrpo]
  refine ⟨⟨_, rfl⟩, hnodup, fun c hc s hs => (hmem s).1 (hvisit.closed c ?_ s hs), fun c hc => ?_⟩
  · have hcv := (hmem c).2 hc
    rw [hvisit.mem] at hcv
    simpa using hcv
  rw [drop_one, tail_cons, mem_reverse] at hc
  obtain ⟨pre, post, rfl⟩ := append_of_mem hc
  obtain ⟨p, hp, hcp⟩ := hinit pre c post rfl
  have hsplit : 0 :: (pre ++ c :: post).reverse = (0 :: post.reverse) ++ c :: pre.reverse := by
    simp
  have hp' : p ∈ 0 :: post.reverse := by
    simp only [mem_append, mem_singleton] at hp
    simp only [mem_cons, mem_reverse]
    tauto
  have hpm : p ∈ 0 :: (pre ++ c :: post).reverse := by
    rw [hsplit, mem_append]
    exact .inl hp'
  have hcm : c ∈ 0 :: (pre ++ c :: post).reverse := by
    rw [hsplit]
    simp
  refine ⟨p, hpm, hcp, ?_⟩
  rw [rpoIndex, rpoIndex, if_pos hpm, if_pos hcm, hsplit]
  have hcnot : c ∉ 0 :: post.reverse := by
    rw [hsplit] at hnodup
    exact fun h => (nodup_append.1 hnodup).2.2 c h c (by simp) rfl
  have h1 : ((0 :: post.reverse) ++ c :: pre.reverse).idxOf p < (0 :: post.reverse).length := by
    rw [idxOf_append_of_mem hp']
    exact idxOf_lt_length_of_mem hp'
  have h2 : (0 :: post.reverse).length ≤ ((0 :: post.reverse) ++ c :: pre.reverse).idxOf c := by
    rw [idxOf_append_of_notMem hcnot]
    omega
  omega

/-- The blocks of an order are blocks of the graph. -/
theorem Order.lt (h : Order succs rpo) (hn : ∀ b < n, ∀ s ∈ succs b, s < n)
    (h0 : 0 < n) : ∀ c ∈ rpo, c < n := by
  intro c hc
  -- By the index: every block but the first is a successor of one further up.
  induction hi : rpoIndex rpo c using Nat.strong_induction_on generalizing c with
  | _ i ih =>
    obtain ⟨rest, hrest⟩ := h.head
    by_cases hc0 : c = 0
    · rwa [hc0]
    have hdrop : c ∈ rpo.drop 1 := by
      rw [hrest] at hc ⊢
      simpa [hc0] using hc
    obtain ⟨p, hp, hcp, hlt⟩ := h.forward c hdrop
    exact hn p (ih _ (hi ▸ hlt) p hp rfl) c hcp

theorem Order.length_le (h : Order succs rpo) (hn : ∀ b < n, ∀ s ∈ succs b, s < n)
    (h0 : 0 < n) : rpo.length ≤ n := by
  have hsub : rpo ⊆ List.range n := fun c hc => mem_range.2 (h.lt hn h0 c hc)
  simpa using (h.nodup.subperm hsub).length_le

theorem rpoIndex_inj {a b : ℕ} (ha : a ∈ rpo) (hb : b ∈ rpo)
    (h : rpoIndex rpo a = rpoIndex rpo b) : a = b := by
  rw [rpoIndex, rpoIndex, if_pos ha, if_pos hb, Nat.add_right_cancel_iff] at h
  exact (idxOf_inj ha).1 h

theorem rpoIndex_le (b : ℕ) : rpoIndex rpo b ≤ rpo.length := by
  unfold rpoIndex
  split_ifs with hb
  · exact idxOf_lt_length_of_mem hb
  · exact Nat.zero_le _

/-- The indices increase along the order. -/
theorem pairwise_rpoIndex (h : rpo.Nodup) :
    rpo.Pairwise fun a b => rpoIndex rpo a < rpoIndex rpo b := by
  rw [pairwise_iff_getElem]
  intro i j hi hj hij
  rw [rpoIndex, rpoIndex, if_pos (getElem_mem hi), if_pos (getElem_mem hj),
    h.idxOf_getElem, h.idxOf_getElem]
  omega

end Order

/-! ## Common ancestors -/

section Intersect

variable {rank : ℕ → ℕ} {D : Parents ℕ}

/-- An inner loop of `intersect` arrives at the lowest ancestor whose index is not above. -/
theorem climb_spec (hR : Ranked D rank 0) {g : ℕ} (hg : Known D g) :
    ∀ fuel f, Known D f → rank f ≤ fuel → ∃ f', climb rank D g fuel f = some f' ∧ Anc D f' f ∧
      rank f' ≤ rank g ∧ ∀ x, Anc D x f → rank x ≤ rank g → Anc D x f' := by
  intro fuel
  induction fuel with
  | zero =>
    intro f _ hle
    have hnot : ¬rank g < rank f := by omega
    exact ⟨f, if_neg hnot, .refl D f, by omega, fun x hx _ => hx⟩
  | succ fuel ih =>
    intro f hf hle
    by_cases hlt : rank g < rank f
    · -- The root is not above anything, so that `f` has a parent of smaller index.
      have hroot : f ≠ 0 := by
        rintro rfl
        have := hR.anc_rank (hR.anc_root hg)
        omega
      obtain ⟨d, hd⟩ := Option.isSome_iff_exists.1 hf
      have hrank := hR.lt hd hroot
      obtain ⟨f', hf', hanc, hle', hlow⟩ := ih d (hR.known hd) (by omega)
      refine ⟨f', ?_, hanc.trans (.of_parent hd (.refl D d)), hle', fun x hx hxg => ?_⟩
      · rw [climb, if_pos hlt, hd]
        exact hf'
      obtain rfl | ⟨d', hd', hx⟩ := hx.cases
      · omega
      · rw [hd, Option.some.injEq] at hd'
        exact hlow x (hd' ▸ hx) hxg
    · refine ⟨f, ?_, .refl D f, by omega, fun x hx _ => hx⟩
      rw [climb, if_neg hlt]

/-- `intersect` returns the nearest common ancestor. -/
theorem intersect_spec (hR : Ranked D rank 0) {size : ℕ} (hsize : ∀ b, Known D b → rank b ≤ size) :
    ∀ fuel f1 f2, Known D f1 → Known D f2 → rank f1 + rank f2 < fuel →
      ∃ m, intersect rank D size fuel f1 f2 = some m ∧
        ∀ x, Anc D x m ↔ Anc D x f1 ∧ Anc D x f2 := by
  intro fuel
  induction fuel with
  | zero => exact fun f1 f2 _ _ h => absurd h (by omega)
  | succ fuel ih =>
    intro f1 f2 h1 h2 hfuel
    by_cases heq : f1 = f2
    · subst heq
      exact ⟨f1, by simp [intersect], fun x => by simp⟩
    have hne : rank f1 ≠ rank f2 := fun h => heq (hR.inj h1 h2 h)
    obtain ⟨g1, hg1, hanc1, hle1, hlow1⟩ := climb_spec hR h2 size f1 h1 (hsize f1 h1)
    have hk1 := hanc1.known_left hR h1
    obtain ⟨g2, hg2, hanc2, hle2, hlow2⟩ := climb_spec hR hk1 size f2 h2 (hsize f2 h2)
    have hk2 := hanc2.known_left hR h2
    -- Both loops keep the common ancestors, and one of them makes progress.
    have hcommon : ∀ x, Anc D x g1 ∧ Anc D x g2 ↔ Anc D x f1 ∧ Anc D x f2 := by
      refine fun x => ⟨fun h => ⟨h.1.trans hanc1, h.2.trans hanc2⟩, fun h => ?_⟩
      have hx1 := hlow1 x h.1 (hR.anc_rank h.2)
      exact ⟨hx1, hlow2 x h.2 (hR.anc_rank hx1)⟩
    have hr1 := hR.anc_rank hanc1
    have hr2 := hR.anc_rank hanc2
    by_cases hzero : g1 = 0 ∧ g2 = 0
    · refine ⟨0, ?_, fun x => ?_⟩
      · rw [intersect, if_neg heq]
        simp only [hg1, hg2, Option.bind_eq_bind, Option.bind_some, if_pos hzero]
        rfl
      rw [← hcommon, hzero.1, hzero.2, and_self]
    obtain ⟨m, hm, hmx⟩ := ih g1 g2 hk1 hk2 (by omega)
    refine ⟨m, by simp [intersect, heq, hg1, hg2, hzero, hm], fun x => ?_⟩
    rw [hmx, hcommon]

/-- The ancestors of a fold are those that all have in common. -/
theorem foldlM_intersect (hR : Ranked D rank 0) {size : ℕ}
    (hsize : ∀ b, Known D b → rank b ≤ size) :
    ∀ (rest : List ℕ) (p : ℕ), Known D p → (∀ q ∈ rest, Known D q) →
      ∃ m, rest.foldlM (intersect rank D size (2 * size + 1)) p = some m ∧
        ∀ x, Anc D x m ↔ Anc D x p ∧ ∀ q ∈ rest, Anc D x q
  | [], p, _, _ => ⟨p, rfl, fun x => by simp⟩
  | q :: rest, p, hp, hrest => by
    have hq := hrest q (by simp)
    obtain ⟨m, hm, hmx⟩ := intersect_spec hR hsize (2 * size + 1) p q hp hq
      (by have := hsize p hp; have := hsize q hq; omega)
    have hmk : Known D m := ((hmx m).1 (.refl D m)).1.known_left hR hp
    obtain ⟨m', hm', hmx'⟩ := foldlM_intersect hR hsize rest m hmk fun r hr =>
      hrest r (by simp [hr])
    refine ⟨m', ?_, fun x => ?_⟩
    · rw [foldlM_cons, hm]
      exact hm'
    · rw [hmx', hmx, forall_mem_cons, and_assoc]

end Intersect

/-! ## The passes -/

section Passes

variable {preds : ℕ → List ℕ} {rank : ℕ → ℕ}

/-- `m` is the nearest common ancestor of the predecessors of `b` that have an ancestor. -/
def Nearest (preds : ℕ → List ℕ) (D : Parents ℕ) (b m : ℕ) : Prop :=
  (∀ x, Anc D x m ↔ ∀ p ∈ preds b, Known D p → Anc D x p) ∧ ∀ p, preds b = [p] → m = p

/-- The parent of `b` is not above the common ancestors of its predecessors. -/
def Covers (preds : ℕ → List ℕ) (D : Parents ℕ) (b : ℕ) : Prop :=
  ∀ d, D b = some d → ∀ x, (∀ p ∈ preds b, Known D p → Anc D x p) → Anc D x d

/-- The parent of `b` is an ancestor of its predecessors in forward order. -/
def Fwd (preds : ℕ → List ℕ) (rank : ℕ → ℕ) (D : Parents ℕ) (b : ℕ) : Prop :=
  ∀ d, D b = some d → ∀ q ∈ preds b, Known D q → rank q < rank b → Anc D d q

/-- A block is moved to the nearest common ancestor of its predecessors. -/
theorem updateDom_spec {D : Parents ℕ} (hR : Ranked D rank 0) {size : ℕ}
    (hsize : ∀ b, Known D b → rank b ≤ size) {b : ℕ} (hq : ∃ q ∈ preds b, Known D q) :
    ∃ m, Nearest preds D b m ∧ ∀ changed, updateDom preds rank size (D, changed) b =
      if D b = some m then some (D, changed) else some (update D b (some m), true) := by
  obtain ⟨q, hq, hqk⟩ := hq
  have hmem : ∀ r, r ∈ (preds b).filter (fun p => (D p).isSome) ↔ r ∈ preds b ∧ Known D r := by
    intro r
    rw [mem_filter]
    rfl
  cases hf : (preds b).filter fun p => (D p).isSome with
  | nil =>
    have := (hmem q).2 ⟨hq, hqk⟩
    rw [hf] at this
    simp at this
  | cons p rest =>
    rw [hf] at hmem
    obtain ⟨m, hm, hmx⟩ := foldlM_intersect hR hsize rest p ((hmem p).1 (by simp)).2
      fun r hr => ((hmem r).1 (by simp [hr])).2
    refine ⟨m, ⟨fun x => ?_, fun r hr => ?_⟩, fun changed => ?_⟩
    · rw [hmx, ← forall_mem_cons]
      exact ⟨fun h r hr hk => h r ((hmem r).2 ⟨hr, hk⟩),
        fun h r hr => h r ((hmem r).1 hr).1 ((hmem r).1 hr).2⟩
    · -- The only predecessor is the start of the fold.
      have hk : Known D r := by
        rw [hr, mem_singleton] at hq
        exact hq ▸ hqk
      have hself : (preds b).filter (fun p => (D p).isSome) = [r] := by
        rw [hr]
        exact filter_eq_self.2 (by simpa [Known] using hk)
      rw [hself] at hf
      obtain ⟨rfl, rfl⟩ := List.cons.inj hf
      rw [foldlM_nil] at hm
      exact (Option.some.inj hm).symm
    · unfold updateDom
      rw [hf]
      simp only [hm, Option.bind_eq_bind, Option.bind_some]
      by_cases hb : D b = some m
      · rw [if_neg (by simpa using hb), if_pos hb]
      · rw [if_pos hb, if_neg hb]

/-- A pass from the tree `D0` that has visited `done`. The ancestors of a block got fewer
(`shrink`), and an ancestor that it kept, it kept with that one's (`chain`). -/
structure Mid (preds : ℕ → List ℕ) (rank : ℕ → ℕ) (D0 D : Parents ℕ) (done : List ℕ) : Prop where
  ranked : Ranked D rank 0
  same : ∀ c, c ∉ done → D c = D0 c
  known0 : ∀ u, Known D0 u → Known D u
  shrink : ∀ x u, Known D0 u → Anc D x u → Anc D0 x u
  chain : ∀ u w x, Known D0 u → Anc D0 w u → rank x ≤ rank w → Anc D x u → Anc D x w
  known : ∀ c ∈ done, Known D c
  covers : ∀ c ∈ done, Covers preds D c
  fwd : ∀ c ∈ done, Fwd preds rank D c

/-- The state between two passes. -/
structure Between (preds : ℕ → List ℕ) (rank : ℕ → ℕ) (D : Parents ℕ) : Prop where
  ranked : Ranked D rank 0
  covers : ∀ c ≠ 0, Covers preds D c
  fwd : ∀ c ≠ 0, Fwd preds rank D c
  fed : ∀ c ≠ 0, Known D c → ∃ q ∈ preds c, rank q < rank c ∧ Known D q

theorem Between.mid {D0 : Parents ℕ} (h : Between preds rank D0) : Mid preds rank D0 D0 [] where
  ranked := h.ranked
  same _ _ := rfl
  known0 _ hu := hu
  shrink _ _ _ hx := hx
  chain u w x hu hw hr hx := h.ranked.anc_linear hx hw hu hr
  known := by simp
  covers := by simp
  fwd := by simp

/-- A relation handed down from a block to its predecessors, as being on every path from the entry
is. -/
structure HandedDown (preds : ℕ → List ℕ) (S : ℕ → ℕ → Prop) : Prop where
  root : ∀ x, S x 0 → x = 0
  pred : ∀ x c p, S x c → x ≠ c → p ∈ preds c → S x p

/-- Related blocks are ancestors. -/
def Keeps (S : ℕ → ℕ → Prop) (D : Parents ℕ) : Prop := ∀ x u, Known D u → S x u → Anc D x u

/-- A block related to one below `b`, with a smaller index than `b`, is related to `b`: it is handed
down along predecessors in forward order, and `b` is above each. -/
theorem Between.handed_down {D : Parents ℕ} (h : Between preds rank D) {S : ℕ → ℕ → Prop}
    (hS : HandedDown preds S) {b x : ℕ} (hx : rank x < rank b) :
    ∀ u, Known D u → Anc D b u → S x u → S x b := by
  intro u
  induction hi : rank u using Nat.strong_induction_on generalizing u with
  | _ i ih =>
    intro hu hb hxu
    have hrank := h.ranked.anc_rank hb
    obtain rfl | ⟨d, hd, hbd⟩ := hb.cases
    · exact hxu
    have hu0 : u ≠ 0 := by
      rintro rfl
      rw [h.ranked.eq_root hb] at hx
      exact absurd (h.ranked.anc_rank (h.ranked.anc_root hu)) (by rw [hS.root x hxu] at hx; omega)
    have hxne : x ≠ u := by
      rintro rfl
      omega
    obtain ⟨q, hq, hlt, hqk⟩ := h.fed u hu0 hu
    exact ih (rank q) (hi ▸ hlt) q rfl hqk (hbd.trans (h.fwd u hu0 d hd q hq hqk hlt))
      (hS.pred x u q hxu hxne hq)

section Step

variable {D0 D : Parents ℕ} {done : List ℕ} {b m : ℕ}

/-- Related blocks stay ancestors when a block moves to its predecessors' common ancestor. -/
theorem Mid.keeps (hm : Mid preds rank D0 D done) (h0 : Between preds rank D0) (hdone : b ∉ done)
    (hrank : ∀ c ∈ done, rank c < rank b) (hq : ∃ q ∈ preds b, rank q < rank b ∧ Known D q)
    (hnear : Nearest preds D b m) {S : ℕ → ℕ → Prop} (hS : HandedDown preds S) (hD : Keeps S D) :
    Keeps S (update D b (some m)) := by
  have hR := hm.ranked
  obtain ⟨q, hq, hqlt, hqk⟩ := hq
  have hmlt : rank m < rank b :=
    lt_of_le_of_lt (hR.anc_rank ((hnear.1 m).1 (.refl D m) q hq hqk)) hqlt
  -- What is related to the moved block, other than itself, is above its new parent.
  have hself : ∀ x, S x b → x ≠ b → Anc D x m := fun x hx hne =>
    (hnear.1 x).2 fun p hp hk => hD x p hk (hS.pred x b p hx hne hp)
  intro x u hu hxu
  by_cases hub : u = b
  · subst hub
    by_cases hxu' : x = u
    · rw [hxu']
      exact .refl _ u
    · exact .of_parent (update_self ..) ((anc_update_of_lt hR hmlt).2 (hself x hxu hxu'))
  rw [Known, update_of_ne hub] at hu
  by_cases hbu : Anc D b u
  · have hbk := hbu.known_left hR hu
    rw [anc_update_iff hR hbk hmlt hbu]
    by_cases hxb : rank b ≤ rank x
    · exact .inl ⟨hD x u hu hxu, hxb⟩
    -- The blocks below `b` were not visited in this pass.
    have hle := hR.anc_rank hbu
    have hnot : u ∉ done := fun h => absurd (hrank u h) (by omega)
    have hu0 : Known D0 u := by rwa [Known, ← hm.same u hnot]
    have hxb' := h0.handed_down hS (not_le.1 hxb) u hu0 (hm.shrink b u hu0 hbu) hxu
    refine .inr (hself x hxb' ?_)
    rintro rfl
    exact hxb (le_refl _)
  · exact (anc_update_of_not hbu).2 (hD x u hu hxu)

/-- The nearest common ancestor is above the old parent, which was it at the last visit, and a
predecessor in forward order has since lost no ancestor that the old parent has not lost. -/
theorem Mid.up (hm : Mid preds rank D0 D done) (h0 : Between preds rank D0) (hb : b ≠ 0)
    (hdone : b ∉ done) (hnear : Nearest preds D b m) {d : ℕ} (hd : D b = some d) : Anc D m d := by
  have hd0 : D0 b = some d := by rw [← hm.same b hdone, hd]
  have hk0 : Known D0 b := by
    rw [Known, hd0]
    rfl
  have hmp : ∀ p ∈ preds b, Known D p → Anc D m p := (hnear.1 m).1 (.refl D m)
  obtain ⟨q, hq, hlt, hqk⟩ := h0.fed b hb hk0
  have hmd : Anc D0 m d := h0.covers b hb d hd0 m fun p hp hk =>
    hm.shrink m p hk (hmp p hp (hm.known0 p hk))
  exact hm.chain q d m hqk (h0.fwd b hb d hd0 q hq hqk hlt) (h0.ranked.anc_rank hmd)
    (hmp q hq (hm.known0 q hqk))

/-- One block of a pass. -/
theorem Mid.step (hm : Mid preds rank D0 D done) (h0 : Between preds rank D0) (hb : b ≠ 0)
    (hdone : b ∉ done) (hrank : ∀ c ∈ done, rank c < rank b) (hzero : 0 ∉ done)
    (hq : ∃ q ∈ preds b, rank q < rank b ∧ Known D q)
    (hinj : ∀ {a}, Known D a → rank a = rank b → a = b) (hnear : Nearest preds D b m) :
    Mid preds rank D0 (update D b (some m)) (b :: done) := by
  have hR := hm.ranked
  have hmp : ∀ p ∈ preds b, Known D p → Anc D m p := (hnear.1 m).1 (.refl D m)
  obtain ⟨q, hq, hqlt, hqk⟩ := hq
  have hmk : Known D m := (hmp q hq hqk).known_left hR hqk
  have hmlt : rank m < rank b := lt_of_le_of_lt (hR.anc_rank (hmp q hq hqk)) hqlt
  have hlow : ∀ {x u}, rank u < rank b →
      (Anc (update D b (some m)) x u ↔ Anc D x u) := fun h => anc_update_of_lt hR h
  have hshrink : ∀ {x u}, Known D u → Anc (update D b (some m)) x u → Anc D x u := by
    intro x u hu hx
    cases hd : D b with
    | none =>
      refine (anc_update_of_not fun hbu => ?_).1 hx
      have := hbu.known_left hR hu
      rw [Known, hd] at this
      simp at this
    | some d => exact anc_of_update hR hd (hm.up h0 hb hdone hnear hd) hmlt hx
  have hknown : ∀ {u}, Known D u → Known (update D b (some m)) u := by
    intro u hu
    by_cases hub : u = b
    · rw [Known, hub, update_self]
      rfl
    · rwa [Known, update_of_ne hub]
  refine ⟨hR.update hb hmk hmlt hinj, fun c hc => ?_, fun u hu => hknown (hm.known0 u hu),
    fun x u hu hx => hm.shrink x u hu (hshrink (hm.known0 u hu) hx), ?_, fun c hc => ?_, ?_, ?_⟩
  · rw [mem_cons, not_or] at hc
    obtain ⟨hcb, hcd⟩ := hc
    rw [update_of_ne hcb, hm.same c hcd]
  · intro u w x hu hw hr hx
    have hwk0 := hw.known_left h0.ranked hu
    have hxw := hm.chain u w x hu hw hr (hshrink (hm.known0 u hu) hx)
    by_cases hbw : Anc D b w
    · -- The moved block is on the chain of `w`, and on the one of `u` too: the blocks below it
      -- were not visited yet.
      have hbk := hbw.known_left hR (hm.known0 w hwk0)
      have hbu0 : Anc D0 b u := (hm.shrink b w hwk0 hbw).trans hw
      have hbu : Anc D b u := by
        refine hbu0.induction (P := fun u => Anc D b u) (.refl D b) fun c e he hbe ih => ?_
        have hc : c ∉ done := by
          intro hc
          have h1 := hrank c hc
          have h2 := h0.ranked.anc_rank (.of_parent he hbe)
          omega
        exact .of_parent ((hm.same c hc).trans he) ih
      rw [anc_update_iff hR hbk hmlt hbu] at hx
      rw [anc_update_iff hR hbk hmlt hbw]
      exact hx.imp_left fun h => ⟨hxw, h.2⟩
    · exact (anc_update_of_not hbw).2 hxw
  · obtain rfl | hc := mem_cons.1 hc
    · rw [Known, update_self]
      rfl
    · exact hknown (hm.known c hc)
  · intro c hc d hd x hx
    have hx' : ∀ p ∈ preds c, Known D p → Anc D x p := fun p hp hk =>
      hshrink hk (hx p hp (hknown hk))
    by_cases hcb : c = b
    · subst hcb
      rw [update_self, Option.some.injEq] at hd
      rw [← hd]
      exact (hlow hmlt).2 ((hnear.1 x).2 hx')
    have hcd := (mem_cons.1 hc).resolve_left hcb
    rw [update_of_ne hcb] at hd
    have hdlt := hR.lt hd fun h => hzero (h ▸ hcd)
    exact (hlow (hdlt.trans (hrank c hcd))).2 (hm.covers c hcd d hd x hx')
  · intro c hc d hd r hr hk hrc
    have hrk : rank r < rank b → Known D r := by
      intro h
      have hne : r ≠ b := by
        rintro rfl
        exact lt_irrefl _ h
      rwa [Known, update_of_ne hne] at hk
    by_cases hcb : c = b
    · subst hcb
      rw [update_self, Option.some.injEq] at hd
      rw [← hd]
      exact (hlow hrc).2 (hmp r hr (hrk hrc))
    have hcd := (mem_cons.1 hc).resolve_left hcb
    have hrb := hrc.trans (hrank c hcd)
    rw [update_of_ne hcb] at hd
    exact (hlow hrb).2 (hm.fwd c hcd d hd r hr (hrk hrb) hrc)

end Step

/-- What a tree still has to lose. -/
def potential (rank : ℕ → ℕ) (size : ℕ) (order : List ℕ) (D : Parents ℕ) : ℕ :=
  (order.map fun b => (D b).elim (size + 1) rank).sum

theorem potential_update {order : List ℕ} {size : ℕ} {D : Parents ℕ} {b m : ℕ} (hb : b ∈ order)
    (h : rank m < (D b).elim (size + 1) rank) :
    potential rank size order (update D b (some m)) < potential rank size order D := by
  refine sum_lt_sum _ _ (fun c _ => ?_) ⟨b, hb, by simpa using h⟩
  by_cases hc : c = b
  · subst hc
    simpa using h.le
  · rw [update_of_ne hc]

section Loop

variable {size : ℕ} {order : List ℕ}
    (hsorted : order.Pairwise fun a b => rank a < rank b) (hzero : 0 ∉ order)
    (hsize : ∀ b, rank b ≤ size) (hinj : ∀ a ∈ order, ∀ b, rank a = rank b → b ∈ order → a = b)
    (hroot : ∀ b ∈ order, rank 0 < rank b)
    (hfwd : ∀ b ∈ order, ∃ q ∈ preds b, rank q < rank b ∧ (q = 0 ∨ q ∈ order))

include hsorted hzero hsize hinj hroot hfwd

/-- A pass succeeds, and it leaves the tree with every block at the nearest common ancestor of its
predecessors, or makes it lose something. Related blocks stay ancestors. -/
theorem pass_spec {D0 : Parents ℕ} (h0 : Between preds rank D0) :
    ∀ (todo done : List ℕ) (D : Parents ℕ) (changed : Bool), order = done.reverse ++ todo →
      (∀ c, Known D c → c = 0 ∨ c ∈ order) → Mid preds rank D0 D done →
        ∃ D' changed', todo.foldlM (updateDom preds rank size) (D, changed) = some (D', changed') ∧
          Mid preds rank D0 D' (todo.reverse ++ done) ∧ (∀ c, Known D' c → c = 0 ∨ c ∈ order) ∧
          (∀ S, HandedDown preds S → Keeps S D → Keeps S D') ∧
          (D' = D ∧ changed' = changed ∧ (∀ b ∈ todo, ∃ d, D b = some d ∧ Nearest preds D b d) ∨
            changed' = true ∧ potential rank size order D' < potential rank size order D) := by
  intro todo
  induction todo with
  | nil =>
    intro done D changed _ hk hm
    exact ⟨D, changed, rfl, by simpa using hm, hk, fun _ _ h => h, .inl ⟨rfl, rfl, by simp⟩⟩
  | cons b todo ih =>
    intro done D changed horder hk hm
    have hb : b ∈ order := by simp [horder]
    have hb0 : b ≠ 0 := fun h => hzero (h ▸ hb)
    -- The blocks that were visited are the ones of smaller index.
    have hparts := hsorted
    rw [horder, pairwise_append] at hparts
    have hless : ∀ c ∈ done, rank c < rank b := fun c hc =>
      hparts.2.2 c (by simpa using hc) b (by simp)
    have hmore : ∀ c ∈ b :: todo, rank b ≤ rank c := by
      intro c hc
      obtain rfl | hc := mem_cons.1 hc
      · exact le_refl _
      · exact ((pairwise_cons.1 hparts.2.1).1 c hc).le
    have hdone : b ∉ done := fun h => lt_irrefl _ (hless b h)
    have hz : 0 ∉ done := fun h => hzero (by simp [horder, h])
    obtain ⟨q, hq, hqlt, hqm⟩ := hfwd b hb
    have hqk : Known D q := by
      obtain rfl | hqo := hqm
      · rw [Known, hm.ranked.root_parent]
        rfl
      rw [horder, mem_append, mem_reverse] at hqo
      obtain hqo | hqo := hqo
      · exact hm.known q hqo
      · have := hmore q hqo
        omega
    have hinj' : ∀ {a}, Known D a → rank a = rank b → a = b := by
      intro a ha hr
      obtain rfl | hao := hk a ha
      · have := hroot b hb
        omega
      · exact hinj a hao b hr hb
    obtain ⟨m, hnear, hupd⟩ := updateDom_spec hm.ranked (fun c _ => hsize c) ⟨q, hq, hqk⟩
    have hmid := hm.step h0 hb0 hdone hless hz ⟨q, hq, hqlt, hqk⟩ hinj' hnear
    have horder' : order = (b :: done).reverse ++ todo := by simp [horder]
    have hlist : (b :: todo).reverse ++ done = todo.reverse ++ b :: done := by simp
    by_cases hsame : D b = some m
    · -- Nothing changes.
      have hself : update D b (some m) = D := by
        rw [← hsame, update_eq_self]
      rw [hself] at hmid
      obtain ⟨D', changed', hfold, hmid', hk', hkeeps, hres⟩ :=
        ih (b :: done) D changed horder' hk hmid
      refine ⟨D', changed', ?_, hlist ▸ hmid', hk', hkeeps, hres.imp_left fun h => ⟨h.1, h.2.1, ?_⟩⟩
      · rw [foldlM_cons, hupd, if_pos hsame]
        exact hfold
      intro c hc
      obtain rfl | hc := mem_cons.1 hc
      · exact ⟨m, hsame, hnear⟩
      · exact h.2.2 c hc
    · -- The block moves up.
      have hdrop : rank m < (D b).elim (size + 1) rank := by
        cases hd : D b with
        | none =>
          have := hsize m
          simpa using Nat.lt_succ_of_le this
        | some d =>
          have hup := hm.up h0 hb0 hdone hnear hd
          have hdk : Known D d := hm.ranked.known hd
          refine lt_of_le_of_ne (hm.ranked.anc_rank hup) fun h => hsame ?_
          rw [hd, hm.ranked.anc_eq hup hdk h.ge]
      have hpot := potential_update hb hdrop
      have hk1 : ∀ c, Known (update D b (some m)) c → c = 0 ∨ c ∈ order := by
        intro c hc
        by_cases hcb : c = b
        · exact .inr (hcb ▸ hb)
        · rw [Known, update_of_ne hcb] at hc
          exact hk c hc
      obtain ⟨D', changed', hfold, hmid', hk', hkeeps, hres⟩ :=
        ih (b :: done) (update D b (some m)) true horder' hk1 hmid
      refine ⟨D', changed', ?_, hlist ▸ hmid', hk', fun S hS hD => hkeeps S hS ?_, .inr ?_⟩
      · rw [foldlM_cons, hupd, if_neg hsame]
        exact hfold
      · exact hm.keeps h0 hdone hless ⟨q, hq, hqlt, hqk⟩ hnear hS hD
      obtain ⟨rfl, rfl, -⟩ | ⟨h1, h2⟩ := hres
      · exact ⟨rfl, hpot⟩
      · exact ⟨h1, h2.trans hpot⟩

/-- The loop stops, with every block at the nearest common ancestor of its predecessors. -/
theorem domLoop_spec :
    ∀ fuel D0, Between preds rank D0 → (∀ c, Known D0 c → c = 0 ∨ c ∈ order) →
      potential rank size order D0 < fuel →
        ∃ D, domLoop preds rank size order fuel D0 = some D ∧ Ranked D rank 0 ∧
          (∀ c, Known D c → c = 0 ∨ c ∈ order) ∧
          (∀ S, HandedDown preds S → Keeps S D0 → Keeps S D) ∧
          ∀ b ∈ order, ∃ d, D b = some d ∧ Nearest preds D b d := by
  intro fuel
  induction fuel with
  | zero => exact fun D0 _ _ h => absurd h (by omega)
  | succ fuel ih =>
    intro D0 h0 hk0 hpot
    obtain ⟨D, changed, hfold, hmid, hk, hkeeps, hres⟩ :=
      pass_spec hsorted hzero hsize hinj hroot hfwd h0 order [] D0 false rfl hk0 h0.mid
    rw [append_nil] at hmid
    have hall : ∀ c, Known D c → c ≠ 0 → c ∈ order.reverse := fun c hc h =>
      mem_reverse.2 ((hk c hc).resolve_left h)
    obtain ⟨rfl, rfl, hnear⟩ | ⟨rfl, hlt⟩ := hres
    · refine ⟨D, ?_, hmid.ranked, hk, hkeeps, hnear⟩
      rw [domLoop, hfold]
      rfl
    have hbetween : Between preds rank D := by
      refine ⟨hmid.ranked, fun c hc d hd => ?_, fun c hc d hd => ?_, fun c hc hck => ?_⟩
      · exact hmid.covers c (hall c (by rw [Known, hd]; rfl) hc) d hd
      · exact hmid.fwd c (hall c (by rw [Known, hd]; rfl) hc) d hd
      obtain ⟨q, hq, hlt, hqm⟩ := hfwd c (mem_reverse.1 (hall c hck hc))
      refine ⟨q, hq, hlt, ?_⟩
      obtain rfl | hqo := hqm
      · rw [Known, hmid.ranked.root_parent]
        rfl
      · exact hmid.known q (mem_reverse.2 hqo)
    obtain ⟨D', hloop, hR', hk', hkeeps', hnear'⟩ := ih D hbetween hk (by omega)
    refine ⟨D', ?_, hR', hk', fun S hS hD0 => hkeeps' S hS (hkeeps S hS hD0), hnear'⟩
    rw [domLoop, hfold]
    exact hloop

end Loop

end Passes

/-! ## The dominator tree -/

/-- What `compute_dominators` computes: a tree in which the parent of a block is the nearest common
ancestor of its predecessors. -/
structure DomTree (succs preds : ℕ → List ℕ) (rpo : List ℕ) (D : Parents ℕ) : Prop where
  ranked : Ranked D (rpoIndex rpo) 0
  known : ∀ c, Known D c ↔ c ∈ rpo
  nearest : ∀ b ∈ rpo, b ≠ 0 → ∃ d, D b = some d ∧ Nearest preds D b d

section DomTree

variable {n : ℕ} {succs preds : ℕ → List ℕ} (hn : ∀ b < n, ∀ s ∈ succs b, s < n) (h0 : 0 < n)
  (hpreds : ∀ p b, p ∈ preds b ↔ p < n ∧ b ∈ succs p)

include hn h0 hpreds

/-- `compute_dominators` stops with the dominator tree. It starts with the entry alone, so that what
is handed down to predecessors are ancestors. -/
theorem domTree_keeps :
    ∃ D, domTree n succs preds = some D ∧ DomTree succs preds (reversePostorder n succs) D ∧
      ∀ S, HandedDown preds S → Keeps S D := by
  have horder := order_reversePostorder hn h0
  unfold domTree
  generalize reversePostorder n succs = rpo at *
  obtain ⟨rest, hrest⟩ := horder.head
  have hdrop : rpo.drop 1 = rest := by simp [hrest]
  have hmem : ∀ c, c ∈ rpo ↔ c = 0 ∨ c ∈ rest := by simp [hrest]
  have hlt := horder.lt hn h0
  have hlen := horder.length_le hn h0
  have hpair := pairwise_rpoIndex horder.nodup
  have hzero : 0 ∉ rest := by
    have := horder.nodup
    rw [hrest, nodup_cons] at this
    exact this.1
  have hpair0 : ∀ b ∈ rest, rpoIndex rpo 0 < rpoIndex rpo b := by
    generalize rpoIndex rpo = rank at *
    rw [hrest, pairwise_cons] at hpair
    exact hpair.1
  have hpairs : rest.Pairwise fun a b => rpoIndex rpo a < rpoIndex rpo b := by
    generalize rpoIndex rpo = rank at *
    rw [hrest, pairwise_cons] at hpair
    exact hpair.2
  have hfwd : ∀ b ∈ rest, ∃ q ∈ preds b, rpoIndex rpo q < rpoIndex rpo b ∧ (q = 0 ∨ q ∈ rest) := by
    intro b hb
    obtain ⟨p, hp, hbp, hpb⟩ := horder.forward b (by rwa [hdrop])
    exact ⟨p, (hpreds p b).2 ⟨hlt p hp, hbp⟩, hpb, (hmem p).1 hp⟩
  -- The first tree has only the root.
  have hstart : ∀ c, Known (update (fun _ : ℕ => none) 0 (some 0)) c → c = 0 := by
    intro c hc
    by_contra h
    rw [Known, update_of_ne h] at hc
    simp at hc
  have hparent : ∀ {c d}, update (fun _ : ℕ => none) 0 (some 0) c = some d →
      c = 0 ∧ d = 0 := by
    intro c d hd
    have hc := hstart c (by rw [Known, hd]; rfl)
    rw [hc, update_self, Option.some.injEq] at hd
    exact ⟨hc, hd.symm⟩
  have hbetween : Between preds (rpoIndex rpo) (update (fun _ => none) 0 (some 0)) := by
    refine ⟨⟨update_self .., fun hd hb => absurd (hparent hd).1 hb, fun hd => ?_,
      fun ha hb _ => (hstart _ ha).trans (hstart _ hb).symm⟩, ?_, ?_, ?_⟩
    · rw [(hparent hd).2, Known, update_self]
      rfl
    · exact fun c hc d hd => absurd (hparent hd).1 hc
    · exact fun c hc d hd => absurd (hparent hd).1 hc
    · exact fun c hc hk => absurd (hstart c hk) hc
  have hpot : potential (rpoIndex rpo) (n + 1) rest (update (fun _ => none) 0 (some 0)) <
      n * (n + 2) + 1 := by
    have hbound : ∀ c ∈ rest.map fun b =>
        (update (fun _ : ℕ => none) 0 (some 0) b).elim (n + 1 + 1) (rpoIndex rpo),
        c ≤ n + 2 := by
      intro c hc
      obtain ⟨b, hb, rfl⟩ := mem_map.1 hc
      have hb0 : b ≠ 0 := fun h => hzero (h ▸ hb)
      rw [update_of_ne hb0]
      exact le_refl _
    have hsum := sum_le_card_nsmul _ _ hbound
    have hrl : rest.length ≤ n := by
      rw [hrest, length_cons] at hlen
      omega
    rw [length_map, smul_eq_mul] at hsum
    have := Nat.mul_le_mul_right (n + 2) hrl
    unfold potential
    omega
  simp only [hdrop]
  obtain ⟨D, hD, hR, hk, hkeeps, hnear⟩ := domLoop_spec hpairs hzero
    (fun b => (rpoIndex_le b).trans (by omega))
    (fun a ha b hab hb => rpoIndex_inj ((hmem a).2 (.inr ha)) ((hmem b).2 (.inr hb)) hab)
    hpair0 hfwd _ _ hbetween (fun c hc => .inl (hstart c hc)) hpot
  refine ⟨D, hD, ⟨hR, fun c => ⟨fun hc => (hmem c).2 (hk c hc), fun hc => ?_⟩,
    fun b hb hb0 => ?_⟩, fun S hS => hkeeps S hS fun x u hu hx => ?_⟩
  · obtain rfl | hc := (hmem c).1 hc
    · rw [Known, hR.root_parent]
      rfl
    obtain ⟨d, hd, -⟩ := hnear c hc
    rw [Known, hd]
    rfl
  · exact hnear b (((hmem b).1 hb).resolve_left hb0)
  rw [hstart u hu] at hx ⊢
  rw [hS.root x hx]
  exact .refl _ 0

/-- `compute_dominators` stops with the dominator tree. -/
theorem domTree_spec :
    ∃ D, domTree n succs preds = some D ∧ DomTree succs preds (reversePostorder n succs) D := by
  obtain ⟨D, hD, htree, -⟩ := domTree_keeps hn h0 hpreds
  exact ⟨D, hD, htree⟩

end DomTree

end Univdreams.Ir
