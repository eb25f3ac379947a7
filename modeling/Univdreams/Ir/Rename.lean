import Univdreams.Ir.Ssa

/-!
# Renaming along the dominator tree

What `rename_dfs` and `fill_phi_incoming` of `src/ir/ssa.rs` record. The definition that is live at
the start of a block is its phi function, or else the one that is live at the end of its dominator;
at the entry it is the definition of the entry. Renaming gives every read the definition that is
live in front of its instruction. The operands of the phi functions are not taken from the stacks of
the renaming but from what it recorded in the predecessors, which says nothing about a predecessor
that neither writes nor reads the variable.
-/

namespace Univdreams.Ir

open Univdreams.ParentMap List Relation.ReflTransGen Renaming Option

/-! ## Live definitions -/

/-- The address of the last write of a variable. -/
def lastWrite (v : Var) (as : List Access) : Option ℕ :=
  (as.reverse.find? fun a => v ∈ a.writes).map Access.ip

theorem lastWrite_append (v : Var) (as bs : List Access) :
    lastWrite v (as ++ bs) = (lastWrite v bs).or (lastWrite v as) := by
  unfold lastWrite
  rw [reverse_append, List.find?_append]
  cases bs.reverse.find? fun a => v ∈ a.writes <;> rfl

theorem lastWrite_singleton (v : Var) (a : Access) :
    lastWrite v [a] = if v ∈ a.writes then some a.ip else none := by
  unfold lastWrite
  by_cases h : v ∈ a.writes <;> simp [h]

theorem lastWrite_eq_none {v : Var} {as : List Access} :
    lastWrite v as = none ↔ ∀ a ∈ as, v ∉ a.writes := by
  simp [lastWrite]

section Live

variable (g : Flow) (dom : ℕ → ℕ) (phis : Var → List ℕ) (v : Var)

/-- The definition that is live at the start of a block. -/
inductive LiveIn : ℕ → Def → Prop
  | phi {b} : b ∈ phis v → LiveIn b (.phi b v)
  | entry : 0 ∉ phis v → LiveIn 0 (.entry v)
  | write {b ip} : b ≠ 0 → b ∉ phis v → lastWrite v (g.accs (dom b)) = some ip →
      LiveIn b (.insn ip v)
  | pass {b d} : b ≠ 0 → b ∉ phis v → lastWrite v (g.accs (dom b)) = none → LiveIn (dom b) d →
      LiveIn b d

/-- The definition that is live in a block behind some of its instructions. -/
def LiveAt (b : ℕ) (pre : List Access) (d : Def) : Prop :=
  (∃ ip, lastWrite v pre = some ip ∧ d = .insn ip v) ∨
    lastWrite v pre = none ∧ LiveIn g dom phis v b d

/-- The definition that is live at the end of a block. -/
def LiveOut (b : ℕ) (d : Def) : Prop := LiveAt g dom phis v b (g.accs b) d

/-- The definition on top of the stack when the renaming arrives at a block. -/
def Before (b : ℕ) (d : Def) : Prop :=
  b = 0 ∧ d = .entry v ∨ b ≠ 0 ∧ LiveOut g dom phis v (dom b) d

end Live

section

variable {g : Flow} {dom : ℕ → ℕ} {phis : Var → List ℕ} {v : Var} {b : ℕ}

theorem liveIn_of_before {d : Def} (hb : b ∉ phis v) (h : Before g dom phis v b d) :
    LiveIn g dom phis v b d := by
  obtain ⟨rfl, rfl⟩ | ⟨h0, ⟨ip, hip, rfl⟩ | ⟨hnone, hd⟩⟩ := h
  · exact .entry hb
  · exact .write h0 hb hip
  · exact .pass h0 hb hnone hd

theorem before_of_liveIn {d : Def} (hb : b ∉ phis v) (h : LiveIn g dom phis v b d) :
    Before g dom phis v b d := by
  cases h with
  | phi h => exact absurd h hb
  | entry _ => exact .inl ⟨rfl, rfl⟩
  | write h0 _ hip => exact .inr ⟨h0, .inl ⟨_, hip, rfl⟩⟩
  | pass h0 _ hnone hd => exact .inr ⟨h0, .inr ⟨hnone, hd⟩⟩

/-- The live definition is unique. -/
theorem LiveIn.unique {d d' : Def} (h : LiveIn g dom phis v b d) (h' : LiveIn g dom phis v b d') :
    d = d' := by
  induction h generalizing d' with
  | phi hb =>
    cases h' with
    | phi _ => rfl
    | entry h => exact absurd hb h
    | write _ h _ => exact absurd hb h
    | pass _ h _ _ => exact absurd hb h
  | entry hb =>
    cases h' with
    | phi h => exact absurd h hb
    | entry _ => rfl
    | write h _ _ => exact absurd rfl h
    | pass h _ _ _ => exact absurd rfl h
  | write h0 hb hip =>
    cases h' with
    | phi h => exact absurd h hb
    | entry _ => exact absurd rfl h0
    | write _ _ hip' =>
      rw [hip, Option.some.injEq] at hip'
      rw [hip']
    | pass _ _ hnone _ =>
      rw [hip] at hnone
      cases hnone
  | pass h0 hb hnone _ ih =>
    cases h' with
    | phi h => exact absurd h hb
    | entry _ => exact absurd rfl h0
    | write _ _ hip =>
      rw [hip] at hnone
      cases hnone
    | pass _ _ _ hd => exact ih hd

/-- One definition at most is live at a point. -/
theorem LiveAt.unique {pre : List Access} {d d' : Def} (h : LiveAt g dom phis v b pre d)
    (h' : LiveAt g dom phis v b pre d') : d = d' := by
  obtain ⟨ip, hip, rfl⟩ | ⟨hnone, hd⟩ := h
  · obtain ⟨ip', hip', rfl⟩ | ⟨hnone', _⟩ := h'
    · rw [hip, Option.some.injEq] at hip'
      rw [hip']
    · rw [hip] at hnone'
      cases hnone'
  obtain ⟨ip', hip', rfl⟩ | ⟨_, hd'⟩ := h'
  · rw [hip'] at hnone
    cases hnone
  · exact hd.unique hd'

/-! ## What the renaming records -/

section Records

variable (g dom phis)

/-- A recorded use: the definition is live in front of an instruction that reads the variable. -/
def UseSpec (ip : ℕ) (u : Var) (d : Def) : Prop :=
  ∃ b < g.size, ∃ pre a post, g.accs b = pre ++ a :: post ∧ a.ip = ip ∧ u ∈ a.reads ∧
    LiveAt g dom phis u b pre d

/-- A recorded definition: an instruction writes the variable. -/
def DefSpec (ip : ℕ) (u : Var) (d : Def) : Prop :=
  d = .insn ip u ∧ ∃ b < g.size, ∃ a ∈ g.accs b, a.ip = ip ∧ u ∈ a.writes

/-- Everything that is recorded is right. -/
structure Sound (st : Renaming) : Prop where
  use : ∀ ip u d, st.useAt ip u = some d → UseSpec g dom phis ip u d
  dfn : ∀ ip u d, st.defAt ip u = some d → DefSpec g ip u d

/-- The tops of the stacks in a block, behind some of its instructions. -/
def Tops (st : Renaming) (b : ℕ) (pre : List Access) : Prop :=
  ∀ u, g.Tracks u → ∃ d rest, st.stack u = d :: rest ∧ LiveAt g dom phis u b pre d

end Records

/-- What is recorded stays recorded. -/
structure Grows (st st' : Renaming) : Prop where
  use : ∀ ip u, (st.useAt ip u).isSome → (st'.useAt ip u).isSome
  dfn : ∀ ip u, (st.defAt ip u).isSome → (st'.defAt ip u).isSome

theorem Grows.refl (st : Renaming) : Grows st st := ⟨fun _ _ h => h, fun _ _ h => h⟩

theorem Grows.trans {st1 st2 st3 : Renaming} (h : Grows st1 st2) (h' : Grows st2 st3) :
    Grows st1 st3 :=
  ⟨fun ip u hu => h'.use ip u (h.use ip u hu), fun ip u hu => h'.dfn ip u (h.dfn ip u hu)⟩

/-- The reads and the writes of an instruction are recorded. -/
def Recorded (st : Renaming) (a : Access) : Prop :=
  (∀ u ∈ a.reads, (st.useAt a.ip u).isSome) ∧ ∀ u ∈ a.writes, (st.defAt a.ip u).isSome

theorem Recorded.mono {st st' : Renaming} {a : Access} (h : Recorded st a) (hg : Grows st st') :
    Recorded st' a :=
  ⟨fun u hu => hg.use _ _ (h.1 u hu), fun u hu => hg.dfn _ _ (h.2 u hu)⟩

section Access

variable {pre post : List Access} {a : Access} (hb : b < g.size)

include hb

/-- The reads of an instruction. -/
theorem reads_spec (haccs : g.accs b = pre ++ a :: post) :
    ∀ (rs : List Var) (st : Renaming), rs ⊆ a.reads → Sound g dom phis st →
      Tops g dom phis st b pre →
        (rs.foldl (Renaming.read a.ip) st).stack = st.stack ∧
        (rs.foldl (Renaming.read a.ip) st).defAt = st.defAt ∧
        Sound g dom phis (rs.foldl (Renaming.read a.ip) st) ∧
        Grows st (rs.foldl (Renaming.read a.ip) st) ∧
        ∀ u ∈ rs, ((rs.foldl (Renaming.read a.ip) st).useAt a.ip u).isSome
  | [], st, _, hs, _ => ⟨rfl, rfl, hs, .refl st, by simp⟩
  | r :: rs, st, hsub, hs, htop => by
    have hr : r ∈ a.reads := hsub (by simp)
    have htrack : g.Tracks r := ⟨b, mem_range.2 hb, .inl ⟨a, by simp [haccs], hr⟩⟩
    obtain ⟨d, rest, hstack, hlive⟩ := htop r htrack
    have hread : st.read a.ip r =
        ⟨fun i v => if i = a.ip ∧ v = r then some d else st.useAt i v, st.defAt, st.stack⟩ := by
      rw [Renaming.read, hstack]
      rfl
    have hs' : Sound g dom phis (st.read a.ip r) := by
      rw [hread]
      refine ⟨fun ip u e he => ?_, hs.dfn⟩
      simp only at he
      split_ifs at he with h
      · obtain ⟨rfl, rfl⟩ := h
        cases he
        exact ⟨b, hb, pre, a, post, haccs, rfl, hr, hlive⟩
      · exact hs.use ip u e he
    have hgrow : Grows st (st.read a.ip r) := by
      rw [hread]
      refine ⟨fun ip u hu => ?_, fun _ _ h => h⟩
      simp only
      split_ifs
      · rfl
      · exact hu
    have hsome : ((st.read a.ip r).useAt a.ip r).isSome := by
      rw [hread]
      simp
    have hst : (st.read a.ip r).stack = st.stack := by rw [hread]
    have hdf : (st.read a.ip r).defAt = st.defAt := by rw [hread]
    have htop' : Tops g dom phis (st.read a.ip r) b pre := by
      intro u hu
      rw [hst]
      exact htop u hu
    obtain ⟨h1, h2, h3, h4, h5⟩ := reads_spec haccs rs (st.read a.ip r)
      (fun u hu => hsub (by simp [hu])) hs' htop'
    rw [foldl_cons]
    refine ⟨h1.trans hst, h2.trans hdf, h3, hgrow.trans h4, fun u hu => ?_⟩
    obtain rfl | hu := mem_cons.1 hu
    · exact h4.use _ _ hsome
    · exact h5 u hu

/-- The writes of an instruction. -/
theorem writes_spec (ha : a ∈ g.accs b) :
    ∀ (ws : List Var) (st : Renaming), ws ⊆ a.writes → Sound g dom phis st →
      (∀ u, st.stack u <:+ (ws.foldl (write a.ip) st).stack u) ∧
      (∀ u ∈ ws, ∃ rest, (ws.foldl (write a.ip) st).stack u = .insn a.ip u :: rest) ∧
      (∀ u ∉ ws, (ws.foldl (write a.ip) st).stack u = st.stack u) ∧
      Sound g dom phis (ws.foldl (write a.ip) st) ∧
      Grows st (ws.foldl (write a.ip) st) ∧
      ∀ u ∈ ws, ((ws.foldl (write a.ip) st).defAt a.ip u).isSome
  | [], st, _, hs => ⟨fun _ => suffix_rfl, by simp, fun _ _ => rfl, hs, .refl st, by simp⟩
  | w :: ws, st, hsub, hs => by
    have hw : w ∈ a.writes := hsub (by simp)
    have hs' : Sound g dom phis (st.write a.ip w) := by
      refine ⟨hs.use, fun ip u e he => ?_⟩
      simp only [write] at he
      split_ifs at he with h
      · obtain ⟨rfl, rfl⟩ := h
        cases he
        exact ⟨rfl, b, hb, a, ha, rfl, hw⟩
      · exact hs.dfn ip u e he
    have hgrow : Grows st (st.write a.ip w) := by
      refine ⟨fun _ _ h => h, fun ip u hu => ?_⟩
      simp only [write]
      split_ifs
      · rfl
      · exact hu
    obtain ⟨h1, h2, h3, h4, h5, h6⟩ := writes_spec ha ws (st.write a.ip w)
      (fun u hu => hsub (by simp [hu])) hs'
    rw [foldl_cons]
    have hsuffix : ∀ u, st.stack u <:+ (st.write a.ip w).stack u := by
      intro u
      simp only [write]
      split_ifs
      · exact suffix_cons _ _
      · exact suffix_rfl
    refine ⟨fun u => (hsuffix u).trans (h1 u), fun u hu => ?_, fun u hu => ?_, h4, hgrow.trans h5,
      fun u hu => ?_⟩
    · by_cases huw : u ∈ ws
      · exact h2 u huw
      · obtain rfl : u = w := (mem_cons.1 hu).resolve_right huw
        exact ⟨st.stack u, by rw [h3 u huw]; simp [write]⟩
    · rw [mem_cons, not_or] at hu
      rw [h3 u hu.2]
      simp [write, hu.1]
    by_cases huw : u ∈ ws
    · exact h6 u huw
    · obtain rfl : u = w := (mem_cons.1 hu).resolve_right huw
      exact h5.dfn _ _ (by simp [write])

/-- An instruction. -/
theorem access_spec (haccs : g.accs b = pre ++ a :: post) {st : Renaming} (hs : Sound g dom phis st)
    (htop : Tops g dom phis st b pre) :
    Sound g dom phis (st.access a) ∧ Tops g dom phis (st.access a) b (pre ++ [a]) ∧
      Grows st (st.access a) ∧ (∀ u, st.stack u <:+ (st.access a).stack u) ∧
        Recorded (st.access a) a := by
  obtain ⟨r1, r2, r3, r4, r5⟩ := reads_spec hb haccs a.reads st (fun _ h => h) hs htop
  obtain ⟨w1, w2, w3, w4, w5, w6⟩ := writes_spec (b := b) (a := a) hb (by simp [haccs]) a.writes
    (a.reads.foldl (Renaming.read a.ip) st) (fun _ h => h) r3
  refine ⟨w4, fun u hu => ?_, r4.trans w5, fun u => ?_, fun u hu => w5.use _ _ (r5 u hu), w6⟩
  · have hlast : lastWrite u (pre ++ [a]) = if u ∈ a.writes then some a.ip
      else lastWrite u pre := by
      rw [lastWrite_append, lastWrite_singleton]
      split_ifs <;> rfl
    by_cases huw : u ∈ a.writes
    · obtain ⟨rest, hrest⟩ := w2 u huw
      exact ⟨_, rest, hrest, .inl ⟨a.ip, by rw [hlast, if_pos huw], rfl⟩⟩
    obtain ⟨d, rest, hstack, hlive⟩ := htop u hu
    refine ⟨d, rest, ?_, ?_⟩
    · rw [← hstack, ← r1]
      exact w3 u huw
    · unfold LiveAt at hlive ⊢
      rwa [hlast, if_neg huw]
  · rw [← r1]
    exact w1 u

/-- The instructions of a block. -/
theorem accesses_spec :
    ∀ (as pre : List Access) (st : Renaming), g.accs b = pre ++ as → Sound g dom phis st →
      Tops g dom phis st b pre →
        Sound g dom phis (as.foldl access st) ∧
        Tops g dom phis (as.foldl access st) b (g.accs b) ∧
        Grows st (as.foldl access st) ∧
        (∀ u, st.stack u <:+ (as.foldl access st).stack u) ∧
        ∀ a ∈ as, Recorded (as.foldl access st) a
  | [], pre, st, haccs, hs, htop => by
    rw [append_nil] at haccs
    exact ⟨hs, haccs ▸ htop, .refl st, fun _ => suffix_rfl, by simp⟩
  | a :: as, pre, st, haccs, hs, htop => by
    obtain ⟨h1, h2, h3, h4, h5⟩ := access_spec hb haccs hs htop
    obtain ⟨k1, k2, k3, k4, k5⟩ := accesses_spec as (pre ++ [a]) (st.access a)
      (by rw [haccs, append_assoc]; rfl) h1 h2
    rw [foldl_cons]
    refine ⟨k1, k2, h3.trans k3, fun u => (h4 u).trans (k4 u), fun c hc => ?_⟩
    obtain rfl | hc := mem_cons.1 hc
    · exact h5.mono k3
    · exact k5 c hc

end Access

/-! ## The walk over the dominator tree -/

/-- `Below dom b c`: the block `c` is below `b` in the tree, or is `b`. -/
def Below (dom : ℕ → ℕ) (b c : ℕ) : Prop :=
  Relation.ReflTransGen (fun x y => x ≠ 0 ∧ dom x = y) c b

/-- The immediate dominators form a tree with root 0. -/
structure IsTree (g : Flow) (dom : ℕ → ℕ) (depth : ℕ → ℕ) : Prop where
  root : dom 0 = 0
  mem : ∀ b < g.size, dom b < g.size
  lt : ∀ b < g.size, b ≠ 0 → depth (dom b) < depth b
  le : ∀ b, depth b ≤ g.size + 1

variable {depth : ℕ → ℕ}

theorem IsTree.below (ht : IsTree g dom depth) : ∀ {b : ℕ}, b < g.size → Below dom 0 b := by
  intro b hb
  induction hd : depth b using Nat.strong_induction_on generalizing b with
  | _ d ih =>
    by_cases h0 : b = 0
    · rw [h0]
      exact .refl
    · exact .head ⟨h0, rfl⟩ (ih _ (hd ▸ ht.lt b hb h0) (ht.mem b hb) rfl)

theorem IsTree.mem_of_below (ht : IsTree g dom depth) {c : ℕ} (h : Below dom b c)
    (hc : c < g.size) : b < g.size := by
  induction h with
  | refl => exact hc
  | tail _ hstep ih =>
    rw [← hstep.2]
    exact ht.mem _ ih

/-- The tops of the stacks when the renaming arrives at a block. -/
def Arrives (g : Flow) (dom : ℕ → ℕ) (phis : Var → List ℕ) (st : Renaming) (b : ℕ) : Prop :=
  ∀ u, g.Tracks u → ∃ d rest, st.stack u = d :: rest ∧ Before g dom phis u b d

/-- The phi functions of a block are pushed. -/
theorem tops_pushPhis {st : Renaming} (h : Arrives g dom phis st b) :
    Tops g dom phis (st.pushPhis phis b) b [] := by
  intro u hu
  obtain ⟨d, rest, hstack, hbefore⟩ := h u hu
  by_cases hb : b ∈ phis u
  · exact ⟨.phi b u, st.stack u, by simp [pushPhis, hb], .inr ⟨rfl, .phi hb⟩⟩
  · refine ⟨d, rest, by simp [pushPhis, hb, hstack], .inr ⟨rfl, ?_⟩⟩
    exact liveIn_of_before hb hbefore

/-- The stacks are popped to what they were. -/
theorem popTo_stack {st st' : Renaming} (h : ∀ u, st.stack u <:+ st'.stack u) :
    (st'.popTo fun v => (st.stack v).length).stack = st.stack := by
  funext u
  obtain ⟨pushed, hpushed⟩ := h u
  simp only [popTo, ← hpushed]
  rw [length_append, Nat.add_sub_cancel, drop_left]

/-- The renaming of a subtree records its blocks and leaves the stacks as they were. -/
theorem renameDfs_spec (ht : IsTree g dom depth) :
    ∀ fuel b st, b < g.size → g.size + 2 ≤ fuel + depth b → Sound g dom phis st →
      Arrives g dom phis st b →
        Sound g dom phis (renameDfs g dom phis fuel b st) ∧
        Grows st (renameDfs g dom phis fuel b st) ∧
        (renameDfs g dom phis fuel b st).stack = st.stack ∧
        ∀ c, Below dom b c → c < g.size → ∀ a ∈ g.accs c,
          Recorded (renameDfs g dom phis fuel b st) a := by
  intro fuel
  induction fuel with
  | zero =>
    intro b st hb hfuel
    have := ht.le b
    omega
  | succ fuel ih =>
    intro b st hb hfuel hs harr
    have hs1 : Sound g dom phis (st.pushPhis phis b) := ⟨hs.use, hs.dfn⟩
    obtain ⟨h1, h2, h3, h4, h5⟩ := accesses_spec hb (g.accs b) [] (st.pushPhis phis b) rfl hs1
      (tops_pushPhis harr)
    -- The loop over the children, each of which arrives with the same stacks.
    have hloop : ∀ cs : List ℕ, (∀ c ∈ cs, c < g.size ∧ c ≠ 0 ∧ dom c = b) → ∀ st1,
        Sound g dom phis st1 → Tops g dom phis st1 b (g.accs b) →
          Sound g dom phis (cs.foldl (fun st c => renameDfs g dom phis fuel c st) st1) ∧
          Grows st1 (cs.foldl (fun st c => renameDfs g dom phis fuel c st) st1) ∧
          (cs.foldl (fun st c => renameDfs g dom phis fuel c st) st1).stack = st1.stack ∧
          ∀ c ∈ cs, ∀ e, Below dom c e → e < g.size → ∀ a ∈ g.accs e,
            Recorded (cs.foldl (fun st c => renameDfs g dom phis fuel c st) st1) a := by
      intro cs
      induction cs with
      | nil => exact fun _ st1 hs1 _ => ⟨hs1, .refl st1, rfl, by simp⟩
      | cons c cs ihc =>
        intro hcs st1 hs1 htop
        obtain ⟨hc, hc0, hdom⟩ := hcs c (by simp)
        have hdepth := ht.lt c hc hc0
        rw [hdom] at hdepth
        have harr1 : Arrives g dom phis st1 c := by
          intro u hu
          obtain ⟨d, rest, hstack, hlive⟩ := htop u hu
          refine ⟨d, rest, hstack, .inr ⟨hc0, ?_⟩⟩
          rw [LiveOut, hdom]
          exact hlive
        obtain ⟨k1, k2, k3, k4⟩ := ih c st1 hc (by omega) hs1 harr1
        have htop1 : Tops g dom phis (renameDfs g dom phis fuel c st1) b (g.accs b) := by
          intro u hu
          rw [k3]
          exact htop u hu
        obtain ⟨m1, m2, m3, m4⟩ := ihc (fun e he => hcs e (by simp [he]))
          (renameDfs g dom phis fuel c st1) k1 htop1
        rw [foldl_cons]
        refine ⟨m1, k2.trans m2, m3.trans k3, fun e he => ?_⟩
        obtain rfl | he := mem_cons.1 he
        · exact fun e' hbe hlt a ha => (k4 e' hbe hlt a ha).mono m2
        · exact m4 e he
    have hchild : ∀ c ∈ domChildren g dom b, c < g.size ∧ c ≠ 0 ∧ dom c = b := by
      intro c hc
      obtain ⟨hc, hcd⟩ := mem_filter.1 hc
      simp only [decide_eq_true_eq] at hcd
      refine ⟨mem_range.1 hc, ?_, hcd.2⟩
      rintro rfl
      exact hcd.1 ht.root.symm
    obtain ⟨k1, k2, k3, k4⟩ := hloop (domChildren g dom b) hchild _ h1 h2
    have hsuffix : ∀ u, st.stack u <:+ ((domChildren g dom b).foldl
        (fun st c => renameDfs g dom phis fuel c st)
        ((g.accs b).foldl access (st.pushPhis phis b))).stack u := by
      intro u
      rw [k3]
      refine List.IsSuffix.trans ?_ (h4 u)
      simp only [pushPhis]
      split_ifs
      · exact suffix_cons _ _
      · exact suffix_rfl
    have hgrow : Grows st ((domChildren g dom b).foldl
        (fun st c => renameDfs g dom phis fuel c st)
        ((g.accs b).foldl access (st.pushPhis phis b))) :=
      Grows.trans ⟨h3.use, h3.dfn⟩ k2
    rw [renameDfs]
    refine ⟨⟨k1.use, k1.dfn⟩, ⟨hgrow.use, hgrow.dfn⟩, popTo_stack hsuffix, fun c hbc hc a ha => ?_⟩
    -- A block below is the block itself or below one of its children.
    have hrec : Recorded ((domChildren g dom b).foldl
        (fun st c => renameDfs g dom phis fuel c st)
        ((g.accs b).foldl access (st.pushPhis phis b))) a := by
      obtain rfl | ⟨e, hec, he0, rfl⟩ := cases_tail hbc
      · exact (h5 a ha).mono k2
      have he : e < g.size := ht.mem_of_below hec hc
      have hmem : e ∈ domChildren g dom (dom e) := by
        refine mem_filter.2 ⟨mem_range.2 he, ?_⟩
        have hlt := ht.lt e he he0
        simp only [decide_eq_true_eq, and_true]
        intro heq
        rw [← heq] at hlt
        exact lt_irrefl _ hlt
      exact k4 e hmem c hec hc a ha
    exact hrec

/-! ## The whole pass -/

/-- A flow graph of a function: the successors are blocks, and an address stands once. -/
structure Flow.WF (g : Flow) : Prop where
  succs_lt : ∀ b < g.size, ∀ s ∈ g.succs b, s < g.size
  ips_nodup : (((List.range g.size).flatMap g.accs).map Access.ip).Nodup

theorem Flow.mem_preds {p : ℕ} : p ∈ g.preds b ↔ p < g.size ∧ b ∈ g.succs p := by
  simp [Flow.preds]

theorem idxOf_ip {pre post : List Access} {a : Access}
    (h : ((pre ++ a :: post).map Access.ip).Nodup) :
    ((pre ++ a :: post).map Access.ip).idxOf a.ip = pre.length := by
  rw [map_append, map_cons] at h ⊢
  have hnot : a.ip ∉ pre.map Access.ip := fun hmem => (nodup_append.1 h).2.2 _ hmem _ (by simp) rfl
  rw [idxOf_append_of_notMem hnot, idxOf_cons_self, length_map, Nat.add_zero]

/-- The block and the place of an instruction are determined by its address. -/
theorem Flow.WF.unique (hg : g.WF) {b' : ℕ} {pre post pre' post' : List Access} {a a' : Access}
    (hb : b < g.size) (hb' : b' < g.size) (h : g.accs b = pre ++ a :: post)
    (h' : g.accs b' = pre' ++ a' :: post') (hip : a.ip = a'.ip) : b = b' ∧ pre = pre' ∧ a = a' := by
  have hnodup := hg.ips_nodup
  rw [map_flatMap, nodup_flatMap] at hnodup
  have hmem : a.ip ∈ (g.accs b).map Access.ip := by simp [h]
  have hmem' : a.ip ∈ (g.accs b').map Access.ip := by simp [h', hip]
  have hbb : b = b' := by
    obtain hlt | heq | hlt := lt_trichotomy b b'
    · have hdisj := pairwise_iff_getElem.1 hnodup.2 b b' (by simpa) (by simpa) hlt
      simp only [getElem_range] at hdisj
      exact absurd hmem' (hdisj hmem)
    · exact heq
    have hdisj := pairwise_iff_getElem.1 hnodup.2 b' b (by simpa) (by simpa) hlt
    simp only [getElem_range] at hdisj
    exact absurd hmem (hdisj hmem')
  subst hbb
  have hlist := hnodup.1 b (mem_range.2 hb)
  -- The address stands once in the block, so that the parts in front of it have one length.
  have hlen : pre.length = pre'.length := by
    have h1 : ((g.accs b).map Access.ip).idxOf a.ip = pre.length := by
      rw [h] at hlist ⊢
      exact idxOf_ip hlist
    have h2 : ((g.accs b).map Access.ip).idxOf a'.ip = pre'.length := by
      rw [h'] at hlist ⊢
      exact idxOf_ip hlist
    rw [← h1, ← h2, hip]
  rw [h] at h'
  obtain ⟨hpre, hrest⟩ := append_inj h' hlen
  exact ⟨rfl, hpre, (List.cons.inj hrest).1⟩

section Whole

variable {depth : ℕ → ℕ} {pre post : List Access} {a : Access} {u : Var}
variable (phis)

/-- Renaming records sound definitions for every instruction. -/
theorem renamed_spec (ht : IsTree g dom depth) (h0 : 0 < g.size) :
    Sound g dom phis (g.renamed dom phis) ∧
      ∀ c < g.size, ∀ a ∈ g.accs c, Recorded (g.renamed dom phis) a := by
  have harr : Arrives g dom phis (.start g) 0 := by
    intro u hu
    exact ⟨.entry u, [], by simp [Renaming.start, hu], .inl ⟨rfl, rfl⟩⟩
  have hsound : Sound g dom phis (.start g) := by
    constructor <;> intro ip u d h <;> simp [Renaming.start] at h
  obtain ⟨h1, -, -, h4⟩ := renameDfs_spec ht (g.size + 2) 0 (.start g) h0 (by omega)
    hsound harr
  exact ⟨h1, fun c hc => h4 c (ht.below hc) hc⟩

variable (hg : g.WF) (ht : IsTree g dom depth) (hb : b < g.size)

include hg ht hb

/-- A read is given the definition that is live in front of it. -/
theorem useAt_renamed (haccs : g.accs b = pre ++ a :: post) :
    (u ∈ a.reads → ∃ d, (g.renamed dom phis).useAt a.ip u = some d ∧
        LiveAt g dom phis u b pre d) ∧
      (u ∉ a.reads → (g.renamed dom phis).useAt a.ip u = none) := by
  obtain ⟨hsound, hrec⟩ := renamed_spec phis ht (by omega)
  have hspec : ∀ d, (g.renamed dom phis).useAt a.ip u = some d →
      u ∈ a.reads ∧ LiveAt g dom phis u b pre d := by
    intro d hd
    obtain ⟨b', hb', pre', a', post', haccs', hip, hu, hlive⟩ := hsound.use _ _ _ hd
    obtain ⟨rfl, rfl, rfl⟩ := hg.unique hb hb' haccs haccs' hip.symm
    exact ⟨hu, hlive⟩
  constructor
  · intro hu
    obtain ⟨d, hd⟩ := isSome_iff_exists.1 ((hrec b hb a (by simp [haccs])).1 u hu)
    exact ⟨d, hd, (hspec d hd).2⟩
  intro hu
  cases hd : (g.renamed dom phis).useAt a.ip u with
  | none => rfl
  | some d => exact absurd (hspec d hd).1 hu

/-- A write is given the definition of its instruction. -/
theorem defAt_renamed (ha : a ∈ g.accs b) :
    (g.renamed dom phis).defAt a.ip u = if u ∈ a.writes then some (.insn a.ip u) else none := by
  obtain ⟨hsound, hrec⟩ := renamed_spec phis ht (by omega)
  cases hd : (g.renamed dom phis).defAt a.ip u with
  | none =>
    split_ifs with hu
    · have := (hrec b hb a ha).2 u hu
      rw [hd] at this
      cases this
    · rfl
  | some d =>
    obtain ⟨rfl, b', hb', a', ha', hip, hu⟩ := hsound.dfn _ _ _ hd
    obtain ⟨pre, post, hpre⟩ := append_of_mem ha
    obtain ⟨pre', post', hpre'⟩ := append_of_mem ha'
    obtain ⟨-, -, rfl⟩ := hg.unique hb hb' hpre hpre' hip.symm
    rw [if_pos hu]

/-- A definition that a search from the end finds is the last write. -/
theorem findSome_defAt : ((g.accs b).reverse.findSome? fun a => (g.renamed dom phis).defAt a.ip u) =
      (lastWrite u (g.accs b)).map fun ip => .insn ip u := by
  have hmem : ∀ a ∈ (g.accs b).reverse, (g.renamed dom phis).defAt a.ip u =
      if u ∈ a.writes then some (.insn a.ip u) else none := fun a ha =>
    defAt_renamed phis hg ht hb (mem_reverse.1 ha)
  unfold lastWrite
  generalize (g.accs b).reverse = as at *
  induction as with
  | nil => rfl
  | cons a as ih =>
    rw [List.findSome?_cons, hmem a (by simp), List.find?_cons]
    by_cases hu : u ∈ a.writes
    · simp [hu]
    · simp only [hu, if_false, decide_false]
      exact ih fun c hc => hmem c (by simp [hc])

/-- In a block that does not write the variable, a search for a use from the end finds what is live
at its start, if it reads the variable. -/
theorem findSome_useAt (hw : ¬g.Writes u b) :
    (g.Reads u b → ∃ d, ((g.accs b).reverse.findSome? fun a => (g.renamed dom phis).useAt a.ip u) =
        some d ∧ LiveIn g dom phis u b d) ∧
      (¬g.Reads u b →
        ((g.accs b).reverse.findSome? fun a => (g.renamed dom phis).useAt a.ip u) = none) := by
  have hnone : ∀ pre : List Access, pre ⊆ g.accs b → lastWrite u pre = none := by
    intro pre hsub
    rw [lastWrite_eq_none]
    exact fun a ha hu => hw ⟨a, hsub ha, hu⟩
  constructor
  · rintro ⟨a, ha, hu⟩
    cases hf : (g.accs b).reverse.findSome? fun a => (g.renamed dom phis).useAt a.ip u with
    | none =>
      rw [List.findSome?_eq_none_iff] at hf
      obtain ⟨pre, post, hpre⟩ := append_of_mem ha
      obtain ⟨d, hd, -⟩ := (useAt_renamed phis hg ht hb hpre).1 hu
      rw [hf a (mem_reverse.2 ha)] at hd
      cases hd
    | some d =>
      obtain ⟨c, hc, hd⟩ := List.exists_of_findSome?_eq_some hf
      obtain ⟨pre, post, hpre⟩ := append_of_mem (mem_reverse.1 hc)
      have hspec := useAt_renamed (u := u) phis hg ht hb hpre
      have hcu : u ∈ c.reads := by
        by_contra hcu
        rw [hspec.2 hcu] at hd
        cases hd
      obtain ⟨d', hd', hlive⟩ := hspec.1 hcu
      obtain rfl : d = d' := by
        rw [hd, Option.some.injEq] at hd'
        exact hd'
      refine ⟨d, rfl, ?_⟩
      obtain ⟨ip, hip, -⟩ | ⟨-, hlive⟩ := hlive
      · rw [hnone pre (by rw [hpre]; exact subset_append_left _ _)] at hip
        cases hip
      · exact hlive
  · intro hr
    rw [List.findSome?_eq_none_iff]
    intro a ha
    obtain ⟨pre, post, hpre⟩ := append_of_mem (mem_reverse.1 ha)
    exact (useAt_renamed phis hg ht hb hpre).2 fun hu => hr ⟨a, mem_reverse.1 ha, hu⟩

/-- No block above a block, and not the block either, has a phi function of the variable or writes
it. -/
def Clean (g : Flow) (dom : ℕ → ℕ) (phis : Var → List ℕ) (u : Var) (b : ℕ) : Prop :=
  ∀ r, Below dom r b → r ∉ phis u ∧ ¬g.Writes u r

omit hg ht hb in
theorem lastWrite_accs_eq_none : lastWrite u (g.accs b) = none ↔ ¬g.Writes u b := by
  rw [lastWrite_eq_none]
  exact ⟨fun h ⟨a, ha, hu⟩ => h a ha hu, fun h a ha hu => h ⟨a, ha, hu⟩⟩

omit hg in
/-- The entry definition is live where nothing above changes the variable. -/
theorem liveIn_entry_iff (hw : ¬g.Writes u b) :
    LiveIn g dom phis u b (.entry u) ↔ Clean g dom phis u b := by
  constructor
  · intro h
    generalize hd : Def.entry u = d at h
    induction h with
    | phi _ => cases hd
    | entry h0 =>
      intro r hr
      obtain rfl | ⟨e, ⟨he, -⟩, -⟩ := cases_head hr
      · exact ⟨h0, hw⟩
      · exact absurd rfl he
    | write _ _ _ => cases hd
    | @pass c d hc0 hphi hnone _ ih =>
      intro r hr
      obtain rfl | ⟨e, ⟨-, rfl⟩, hr⟩ := cases_head hr
      · exact ⟨hphi, hw⟩
      · exact ih (ht.mem c hb) (lastWrite_accs_eq_none.1 hnone) hd r hr
  · intro h
    induction hd : depth b using Nat.strong_induction_on generalizing b with
    | _ k ih =>
      have hphi := (h b .refl).1
      by_cases h0 : b = 0
      · subst h0
        exact .entry hphi
      have hup : Clean g dom phis u (dom b) := fun r hr => h r (.head ⟨h0, rfl⟩ hr)
      refine .pass h0 hphi (lastWrite_accs_eq_none.2 (hup _ .refl).2) ?_
      exact ih _ (hd ▸ ht.lt b hb h0) (ht.mem b hb) (hup _ .refl).2 hup rfl

/-- What is taken from a predecessor is live at its end exactly if it writes or reads the variable,
or nothing above it changes it. -/
theorem liveOut_resolve_iff :
    LiveOut g dom phis u b (resolve g (g.renamed dom phis) u b) ↔
      g.Writes u b ∨ g.Reads u b ∨ Clean g dom phis u b := by
  unfold resolve LiveOut LiveAt
  rw [findSome_defAt phis hg ht hb]
  by_cases hw : g.Writes u b
  · obtain ⟨ip, hip⟩ : ∃ ip, lastWrite u (g.accs b) = some ip := by
      rw [← isSome_iff_exists, isSome_iff_ne_none]
      exact fun h => lastWrite_accs_eq_none.1 h hw
    simp [hip, hw]
  have hnone := lastWrite_accs_eq_none.2 hw
  obtain ⟨hread, hunread⟩ := findSome_useAt phis hg ht hb hw
  by_cases hr : g.Reads u b
  · obtain ⟨d, hd, hlive⟩ := hread hr
    simp [hnone, hd, hlive, hr]
  · rw [hnone, hunread hr, ← liveIn_entry_iff phis ht hb hw]
    simp [hw, hr]

end Whole

end

end Univdreams.Ir
