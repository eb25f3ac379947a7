import Univdreams.Compile.EvmValue

/-!
# Rearranging the stack

`Emitter::materialize` replaces the top items of the stack by a list of values. It computes the
values that are not in place on top of the stack and then sorts that region with `SWAP`s and `POP`s.
Each item of the region carries a tag: the goal item it is, or nothing for garbage.

The loop ends because the garbage only shrinks and, with the same garbage, a weight falls in each
round: two for each misplaced item, and three when the top item is in place (`weight`). The weight
of three pays for the one round that moves a well-placed top item out of the way, and such a round
only happens without garbage, since the top of a higher region belongs to no goal item.
-/

namespace Univdreams.Compile

open Evm List Equiv

namespace Emitter

/-! ## The tags -/

/-- Every goal item has its tag at exactly one position. -/
structure Tagged (m : ℕ) (tags : List (Option ℕ)) : Prop where
  /-- The tags are goal items. -/
  lt : ∀ p j : ℕ, tags[p]? = some (some j) → j < m
  /-- Each goal item has a tag. -/
  exists_pos : ∀ j < m, ∃ p : ℕ, tags[p]? = some (some j)
  /-- A tag stands at one position only. -/
  inj : ∀ p q j : ℕ, tags[p]? = some (some j) → tags[q]? = some (some j) → p = q

variable {ρ : Valuation} {m : ℕ} (tags : List (Option ℕ)) (em : Emitter)

/-- The item at position `p` from the top is in its place. -/
def Placed (p : ℕ) : Prop := tags[p]? = some (some (tags.length - 1 - p))

instance (tags : List (Option ℕ)) (p : ℕ) : Decidable (Placed tags p) := by
  unfold Placed
  infer_instance

/-- The positions of the items that are not in their places. -/
def misplaced : Finset ℕ :=
  (Finset.range tags.length).filter fun p => ¬Placed tags p

/-- The weight that falls in every round that swaps. -/
def weight : ℕ :=
  2 * (misplaced tags).card + if Placed tags 0 then 3 else 0

section Tags

variable {m : ℕ} {tags : List (Option ℕ)}

@[simp] theorem length_sortedTags (m : ℕ) : (sortedTags m).length = m := by
  simp [sortedTags]

theorem getElem?_sortedTags {m p : ℕ} (h : p < m) :
    (sortedTags m)[p]? = some (some (m - 1 - p)) := by
  simp [sortedTags, h]

/-- The tags at the start of the loop. -/
theorem getElem?_initial (m g p j : ℕ) :
    (sortedTags m ++ replicate g none)[p]? = some (some j) ↔ p < m ∧ j = m - 1 - p := by
  by_cases hp : p < m
  · rw [List.getElem?_append_left (by simpa using hp), getElem?_sortedTags hp]
    simp [hp, eq_comm]
  · rw [List.getElem?_append_right (by simp; omega)]
    simp [List.getElem?_replicate, hp]

theorem tagged_initial (m g : ℕ) : Tagged m (sortedTags m ++ replicate g none) where
  lt p j hp := by
    rw [getElem?_initial] at hp
    omega
  exists_pos j hj := ⟨m - 1 - j, by rw [getElem?_initial]; omega⟩
  inj p q j hp hq := by
    rw [getElem?_initial] at hp hq
    omega

/-- There is a position for each goal item. -/
theorem Tagged.le_length (h : Tagged m tags) : m ≤ tags.length := by
  choose pos hpos using h.exists_pos
  let f : Fin m → Fin tags.length := fun j =>
    ⟨pos j j.isLt, (List.getElem?_eq_some_iff.1 (hpos j j.isLt)).1⟩
  have hf : Function.Injective f := by
    intro i j hij
    have hsame : pos i i.isLt = pos j j.isLt := congrArg Fin.val hij
    have hi := hpos i i.isLt
    rw [hsame, hpos j j.isLt] at hi
    exact Fin.ext (by simpa using hi.symm)
  simpa using Fintype.card_le_of_injective f hf

theorem Tagged.exchange (h : Tagged m tags) {q : ℕ} (hq : q < tags.length) :
    Tagged m (exchange q tags) where
  lt p j hp := by
    rw [getElem?_exchange hq] at hp
    exact h.lt _ _ hp
  exists_pos j hj := by
    obtain ⟨p, hp⟩ := h.exists_pos j hj
    exact ⟨Equiv.swap 0 q p, by rw [getElem?_exchange hq, swap_apply_self]; exact hp⟩
  inj p r j hp hr := by
    rw [getElem?_exchange hq] at hp hr
    exact (Equiv.swap 0 q).injective (h.inj _ _ j hp hr)

theorem Tagged.tail {rest : List (Option ℕ)} (h : Tagged m (none :: rest)) : Tagged m rest where
  lt p j hp := h.lt (p + 1) j hp
  exists_pos j hj := by
    obtain ⟨p, hp⟩ := h.exists_pos j hj
    cases p with
    | zero => cases hp
    | succ p => exact ⟨p, hp⟩
  inj p q j hp hq := Nat.succ_injective (h.inj (p + 1) (q + 1) j hp hq)

/-- A region without garbage whose items are all in place is sorted. -/
theorem eq_sortedTags (hlen : tags.length = m) (h : ∀ p < m, Placed tags p) :
    tags = sortedTags m := by
  apply ext_getElem? fun p => ?_
  by_cases hp : p < m
  · rw [h p hp, getElem?_sortedTags hp, hlen]
  · rw [List.getElem?_eq_none (by omega), List.getElem?_eq_none (by simp; omega)]

/-! ## The weight -/

theorem placed_exchange {q p : ℕ} (hq : q < tags.length) :
    Placed (exchange q tags) p ↔
      tags[Equiv.swap 0 q p]? = some (some (tags.length - 1 - p)) := by
  rw [Placed, getElem?_exchange hq, length_exchange]

/-- Positions that a swap does not touch. -/
theorem placed_exchange_of_ne {q p : ℕ} (hq : q < tags.length) (h0 : p ≠ 0) (hpq : p ≠ q) :
    Placed (exchange q tags) p ↔ Placed tags p := by
  rw [placed_exchange hq, swap_apply_of_ne_of_ne h0 hpq, Placed]

theorem mem_misplaced {p : ℕ} : p ∈ misplaced tags ↔ p < tags.length ∧ ¬Placed tags p := by
  simp [misplaced]

/-- The weight falls when the top item goes to its place. -/
theorem weight_exchange_home (h : Tagged m tags) {j : ℕ} (htop : tags[0]? = some (some j))
    (hj : j < tags.length - 1) : weight (exchange (tags.length - 1 - j) tags) < weight tags := by
  set q := tags.length - 1 - j with hqdef
  have hq : q < tags.length := by omega
  have hq0 : q ≠ 0 := by omega
  -- The top item is misplaced, and so is the one in its place.
  have htop' : ¬Placed tags 0 := by
    rw [Placed, htop]
    simp
    omega
  have hqold : ¬Placed tags q := by
    intro hplaced
    rw [Placed, show tags.length - 1 - q = j by omega] at hplaced
    exact hq0 (h.inj _ _ j hplaced htop)
  have hqnew : Placed (exchange q tags) q := by
    rw [placed_exchange hq, swap_apply_right, htop]
    congr 2
    omega
  have hsub : misplaced (exchange q tags) ⊆ (misplaced tags).erase q := by
    intro p hp
    rw [mem_misplaced, length_exchange] at hp
    have hpq : p ≠ q := fun heq => hp.2 (heq ▸ hqnew)
    refine Finset.mem_erase.2 ⟨hpq, mem_misplaced.2 ⟨hp.1, ?_⟩⟩
    by_cases hp0 : p = 0
    · exact hp0 ▸ htop'
    · rw [← placed_exchange_of_ne hq hp0 hpq]
      exact hp.2
  have hqmem : q ∈ misplaced tags := mem_misplaced.2 ⟨hq, hqold⟩
  have hpos : 0 < (misplaced tags).card := Finset.card_pos.2 ⟨q, hqmem⟩
  have hcard := Finset.card_erase_of_mem hqmem
  unfold weight
  rw [if_neg htop']
  by_cases hnew : Placed (exchange q tags) 0
  · -- The new top item is in place as well, which makes up for its weight.
    have hsub' : misplaced (exchange q tags) ⊆ ((misplaced tags).erase q).erase 0 := by
      intro p hp
      exact Finset.mem_erase.2 ⟨fun heq => (mem_misplaced.1 hp).2 (heq ▸ hnew), hsub hp⟩
    have hle := Finset.card_le_card hsub'
    have h0mem : 0 ∈ (misplaced tags).erase q :=
      Finset.mem_erase.2 ⟨hq0.symm, mem_misplaced.2 ⟨by omega, htop'⟩⟩
    rw [Finset.card_erase_of_mem h0mem] at hle
    have hpos' := Finset.card_pos.2 ⟨0, h0mem⟩
    rw [if_pos hnew]
    omega
  · have hle := Finset.card_le_card hsub
    rw [if_neg hnew]
    omega

/-- The weight falls when a well-placed top item makes way for a misplaced one. -/
theorem weight_exchange_away (h : Tagged m tags) {q : ℕ} (hq : q < tags.length) (hq0 : q ≠ 0)
    (htop : Placed tags 0) (hbad : ¬Placed tags q) : weight (exchange q tags) < weight tags := by
  have hnew : ¬Placed (exchange q tags) 0 := by
    rw [placed_exchange hq, swap_apply_left]
    exact fun hsame => hq0 (h.inj _ _ _ hsame htop)
  have hsub : misplaced (exchange q tags) ⊆ insert 0 (misplaced tags) := by
    intro p hp
    rw [mem_misplaced, length_exchange] at hp
    by_cases hp0 : p = 0
    · exact Finset.mem_insert.2 (.inl hp0)
    refine Finset.mem_insert_of_mem (mem_misplaced.2 ⟨hp.1, ?_⟩)
    by_cases hpq : p = q
    · exact hpq ▸ hbad
    · rw [← placed_exchange_of_ne hq hp0 hpq]
      exact hp.2
  have hle := (Finset.card_le_card hsub).trans (Finset.card_insert_le _ _)
  unfold weight
  rw [if_pos htop, if_neg hnew]
  omega

end Tags

/-! ## One round -/

/-- A round on an unsorted region drops garbage from the top, or swaps the top item with another of
the region, and the weight falls. -/
theorem sortStep_cases {tags : List (Option ℕ)} (h : Tagged m tags) (hne : tags ≠ sortedTags m)
    (em : Emitter) : (∃ rest, tags = none :: rest ∧
      sortStep em tags = do return (← em.op 0x50 none, rest)) ∨
    (∃ q, q < tags.length ∧ weight (exchange q tags) < weight tags ∧
      sortStep em tags = do return (← em.swap q, exchange q tags)) := by
  match tags, h, hne with
  | [], h, hne =>
    have hm : m = 0 := by simpa using h.le_length
    subst hm
    exact absurd rfl hne
  | none :: rest, _, _ => exact .inl ⟨rest, rfl, rfl⟩
  | some j :: rest, h, hne =>
    right
    set tags := some j :: rest with htags
    have htop : tags[0]? = some (some j) := rfl
    have hlen : 0 < tags.length := by simp [htags]
    have hjm := h.lt 0 j htop
    have hml := h.le_length
    by_cases hj : j = tags.length - 1
    · -- The top item is in place, so there is no garbage, and another item is misplaced.
      have hplaced : Placed tags 0 := by rw [Placed, htop, hj]; rfl
      have hfull : tags.length = m := by omega
      obtain ⟨i, hi⟩ : ∃ i, misplacedSlot tags = some i := by
        rw [← Option.isSome_iff_exists, misplacedSlot, List.find?_isSome]
        by_contra hnone
        push Not at hnone
        refine hne (eq_sortedTags hfull fun p hp => ?_)
        have hp' := hnone (tags.length - 1 - p) (by rw [mem_range]; omega)
        rw [show tags.length - 1 - (tags.length - 1 - p) = p by omega] at hp'
        simpa [Placed] using hp'
      have hfound := List.find?_some hi
      have hmem := mem_range.1 (List.mem_of_find?_eq_some hi)
      have hbad : ¬Placed tags (tags.length - 1 - i) := by
        rw [Placed, show tags.length - 1 - (tags.length - 1 - i) = i by omega]
        simpa using hfound
      have hq0 : tags.length - 1 - i ≠ 0 := fun heq => hbad (heq ▸ hplaced)
      refine ⟨tags.length - 1 - i, by omega, weight_exchange_away h (by omega) hq0 hplaced hbad, ?_⟩
      simp only [htags, sortStep]
      rw [if_neg (by simpa [htags] using hj), ← htags, hi]
      rfl
    · refine ⟨tags.length - 1 - j, by omega, weight_exchange_home h htop (by omega), ?_⟩
      simp only [htags, sortStep]
      rw [if_pos (by simpa [htags] using hj)]

/-! ## The loop ends -/

/-- A loop that has ended within a budget ends the same way within a larger one. -/
theorem sortLoop_mono {m : ℕ} {r : Emit Emitter} (k : ℕ) : ∀ {n : ℕ} {em : Emitter}
    {tags : List (Option ℕ)}, sortLoop m n em tags = some r → sortLoop m (n + k) em tags = some r
  | 0, em, tags, h => by
    rw [sortLoop] at h
    split_ifs at h with hs
    cases k <;> simpa [sortLoop, hs] using h
  | n + 1, em, tags, h => by
    rw [Nat.add_right_comm, sortLoop]
    rw [sortLoop] at h
    split_ifs at h ⊢ with hs
    · exact h
    cases hstep : sortStep em tags with
    | error e => simpa [hstep] using h
    | ok p =>
      simp only [hstep] at h ⊢
      exact sortLoop_mono k h

/-- The emitter's answers that are not panics. -/
theorem op_safe (code : UInt8) (r : Option Sym) : Run.Safe (fun _ => True) (em.op code r) := by
  unfold op
  simp only
  split_ifs <;> trivial

theorem swap_safe (n : ℕ) : Run.Safe (fun _ => True) (em.swap n) := by
  unfold swap
  split_ifs <;> trivial

/-- The loop ends, and not with a panic: induction on the number of tags and then on the weight. -/
theorem sortLoop_ends (h : Tagged m tags) (em : Emitter) :
    ∃ n r, sortLoop m n em tags = some r ∧ Run.Safe (fun _ => True) r := by
  induction hlen : tags.length using Nat.strong_induction_on generalizing tags em with
  | _ len ihlen =>
    induction hw : weight tags using Nat.strong_induction_on generalizing tags em with
    | _ w ihw =>
      by_cases hs : tags = sortedTags m
      · exact ⟨0, .ok em, by simp [sortLoop, hs], trivial⟩
      rcases sortStep_cases h hs em with ⟨rest, rfl, hstep⟩ | ⟨q, hq, hlt, hstep⟩
      · have hsafe := op_safe em 0x50 none
        cases hop : em.op 0x50 none with
        | error e => exact ⟨1, .error e, by simp [sortLoop, hs, hstep, hop], hop ▸ hsafe⟩
        | ok em' =>
          obtain ⟨n, r, hr, hsafe⟩ := ihlen rest.length (by simp [← hlen]) rest h.tail em' rfl
          exact ⟨n + 1, r, by simpa [sortLoop, hs, hstep, hop] using hr, hsafe⟩
      have hsafe := swap_safe em q
      cases hop : em.swap q with
      | error e => exact ⟨1, .error e, by simp [sortLoop, hs, hstep, hop], hop ▸ hsafe⟩
      | ok em' =>
        obtain ⟨n, r, hr, hsafe⟩ := ihw _ (hw ▸ hlt) (exchange q tags) (h.exchange hq) em'
          (by rw [length_exchange, hlen]) rfl
        exact ⟨n + 1, r, by simpa [sortLoop, hs, hstep, hop] using hr, hsafe⟩

/-! ## The loop sorts -/

/-- The words of the region: each tagged item holds the word of its goal item. -/
structure Region (words : List Word) (tags : List (Option ℕ)) (region : List Word) : Prop where
  /-- One word for each tag. -/
  length_eq : region.length = tags.length
  /-- A tagged item holds its goal. -/
  holds : ∀ p j : ℕ, tags[p]? = some (some j) → region[p]? = words[j]?

theorem Region.exchange {words region : List Word} {tags : List (Option ℕ)}
    (h : Region words tags region) {q : ℕ} (hq : q < tags.length) :
    Region words (exchange q tags) (exchange q region) where
  length_eq := by simp [h.length_eq]
  holds p j hp := by
    rw [getElem?_exchange hq] at hp
    rw [getElem?_exchange (h.length_eq ▸ hq)]
    exact h.holds _ j hp

/-- A sorted region holds the goal, its last item on top. -/
theorem Region.eq_reverse {words region : List Word}
    (h : Region words (sortedTags words.length) region) :
    region = words.reverse := by
  have hlen : region.length = words.length := by simpa using h.length_eq
  apply ext_getElem? fun p => ?_
  by_cases hp : p < words.length
  · rw [h.holds p _ (getElem?_sortedTags hp), List.getElem?_reverse hp]
  · rw [List.getElem?_eq_none (by omega), List.getElem?_eq_none (by simp; omega)]

/-- The code of the loop turns the region into the goal and leaves what is below it alone. -/
theorem emits_sortLoop {words base : List Word} (n : ℕ) :
    ∀ {em em' : Emitter} {tags : List (Option ℕ)} {region : List Word}, Tagged words.length tags →
      Region words tags region → em.stack ρ = region ++ base →
      sortLoop words.length n em tags = some (.ok em') →
      Emits ρ em em' ∧ em'.stack ρ = words.reverse ++ base := by
  induction n with
  | zero =>
    intro em em' tags region _ hregion hstack h
    rw [sortLoop] at h
    split_ifs at h with hs
    cases h
    subst hs
    exact ⟨.refl ρ em, by rw [hstack, hregion.eq_reverse]⟩
  | succ n ih =>
    intro em em' tags region htags hregion hstack h
    rw [sortLoop] at h
    split_ifs at h with hs
    · cases h
      subst hs
      exact ⟨.refl ρ em, by rw [hstack, hregion.eq_reverse]⟩
    rcases sortStep_cases htags hs em with ⟨rest, rfl, hstep⟩ | ⟨q, hq, -, hstep⟩
    · -- Garbage on top is dropped.
      cases hop : em.op 0x50 none with
      | error e => simp [hstep, hop] at h
      | ok em1 =>
        simp only [hstep, hop] at h
        obtain ⟨he, s, hmodel⟩ := emits_pop (ρ := ρ) hop
        match region, hregion, hstack with
        | w :: region, hregion, hstack =>
          have hstack1 : em1.stack ρ = region ++ base := by
            simp only [stack, hmodel, map_cons, cons_append, List.cons.injEq] at hstack
            rw [stack, he.opts, hstack.2]
          have hregion1 : Region words rest region :=
            ⟨by simpa using hregion.length_eq, fun p j hp => hregion.holds (p + 1) j hp⟩
          obtain ⟨he', hfinal⟩ := ih htags.tail hregion1 hstack1 h
          exact ⟨he.trans he', hfinal⟩
        | [], hregion, _ => simpa using hregion.length_eq
    · -- The top item changes places with another of the region.
      cases hop : em.swap q with
      | error e => simp [hstep, hop] at h
      | ok em1 =>
        simp only [hstep, hop] at h
        obtain ⟨he, hmodel, -⟩ := emits_swap (ρ := ρ) hop
        have hstack1 : em1.stack ρ = exchange q region ++ base := by
          rw [← exchange_append (hregion.length_eq ▸ hq), ← hstack]
          simp only [stack, hmodel, he.opts, map_exchange]
        obtain ⟨he', hfinal⟩ := ih (htags.exchange hq) (hregion.exchange hq) hstack1 h
        exact ⟨he.trans he', hfinal⟩

/-! ## The whole rearrangement -/

/-- The values of a list are pushed one after another. -/
theorem emits_values (gs : List Sym) : ∀ {em em' : Emitter},
    (∀ g ∈ gs, g.isPure) → em.values gs = .ok em' →
    Emits ρ em em' ∧ em'.stack ρ = (gs.map (Sym.eval ρ em.opts.vyper)).reverse ++ em.stack ρ := by
  induction gs with
  | nil =>
    intro em em' _ h
    cases h
    exact ⟨.refl ρ em, rfl⟩
  | cons g gs ih =>
    intro em em' hp h
    obtain ⟨em1, h1, h2⟩ := Run.bind_eq_ok.1 h
    have hpush := pushes_value (ρ := ρ) g (hp g (by simp)) h1
    obtain ⟨he, hs⟩ := ih (fun x hx => hp x (by simp [hx])) h2
    refine ⟨hpush.toEmits.trans he, ?_⟩
    rw [hs, hpush.stack, hpush.opts]
    simp

theorem keepCount_spec : ∀ (region goal : List Sym), keepCount region goal ≤ region.length ∧
      region.take (keepCount region goal) = goal.take (keepCount region goal)
  | a :: as, g :: gs => by
    obtain ⟨hle, htake⟩ := keepCount_spec as gs
    by_cases hag : a = g
    · simp [keepCount, hag, hle, htake]
    · simp [keepCount, hag]
  | [], _ => by simp [keepCount]
  | _ :: _, [] => by simp [keepCount]

theorem dup_safe {em : Emitter} {s : Sym} {d : ℕ} (hd : em.reachable s = some d) :
    Run.Safe (fun _ => True) (em.dup d) := by
  obtain ⟨hfind, hlt⟩ := Option.filter_eq_some_iff.1 hd
  obtain ⟨hlen, -, -⟩ := List.findIdx?_eq_some_iff_getElem.1 hfind
  unfold dup
  rw [if_neg (by simpa using hlt), List.getElem?_eq_getElem hlen]
  trivial

theorem hashScratch_safe (r : Sym) : Run.Safe (fun _ => True) (em.hashScratch r) :=
  (op_safe _ _ _).bind fun _ _ => (op_safe _ _ _).bind fun _ _ => op_safe _ _ _

mutual

/-- `Emitter::value` does not panic. -/
theorem value_safe (s : Sym) (em : Emitter) : Run.Safe (fun _ => True) (value s em) := by
  rw [value.eq_def]
  cases hd : em.reachable s with
  | some d => exact dup_safe hd
  | none =>
    match s with
    | .slot _ | .unknown _ | .const _ | .label _ _ => trivial
    | .op code args => exact (operands_safe args em).bind fun _ _ => op_safe _ _ _
    | .mapping slot key =>
      by_cases hv : em.opts.vyper
      · simp only [hv, if_true]
        exact (value_safe key em).bind fun em1 _ => (value_safe slot em1).bind fun _ _ =>
          hashScratch_safe _ _
      simp only [hv]
      exact (value_safe slot em).bind fun em1 _ => (value_safe key em1).bind fun _ _ =>
        hashScratch_safe _ _
termination_by structural s

/-- Neither do the operands of an opcode. -/
theorem operands_safe (args : List Sym) (em : Emitter) :
    Run.Safe (fun _ => True) (operands args em) := by
  match args with
  | [] => trivial
  | a :: rest =>
    rw [operands]
    exact (operands_safe rest em).bind fun em1 _ => value_safe a em1
termination_by structural args

end

theorem values_safe (gs : List Sym) (em : Emitter) : Run.Safe (fun _ => True) (em.values gs) := by
  induction gs generalizing em with
  | nil => trivial
  | cons g gs ih => exact (value_safe g em).bind fun em1 _ => ih em1

/-- `Emitter::materialize` returns, for every modelled stack, consumed count and goal. -/
theorem materialize_ends (consumed : ℕ) (goal : List Sym) :
    ∃ r, Run.Safe (fun _ => True) r ∧ ∃ n0, ∀ n ≥ n0, materialize n em consumed goal = some r := by
  unfold materialize
  by_cases hc : em.model.length < consumed
  · exact ⟨emitFail _, trivial, 0, fun n _ => if_pos hc⟩
  simp only [if_neg hc]
  have hsafe := values_safe (goal.drop (keepCount (em.model.take consumed).reverse goal)) em
  cases hv : em.values (goal.drop (keepCount (em.model.take consumed).reverse goal)) with
  | error e => exact ⟨.error e, hv ▸ hsafe, 0, fun n _ => rfl⟩
  | ok em1 =>
    obtain ⟨n, r, hr, hsafe⟩ := sortLoop_ends _ (tagged_initial _ _) em1
    refine ⟨r, hsafe, n, fun k hk => ?_⟩
    obtain ⟨d, rfl⟩ := Nat.exists_eq_add_of_le hk
    exact sortLoop_mono d hr

/-- The stack before the loop: the fresh values, the garbage, and the items that stay. -/
theorem stack_split {em : Emitter} {consumed : ℕ} (goal : List Sym)
    (hc : consumed ≤ em.model.length) :
    ∃ garbage : List Word,
      garbage.length = consumed - keepCount (em.model.take consumed).reverse goal ∧
      em.stack ρ = garbage ++
        (((goal.take (keepCount (em.model.take consumed).reverse goal)).map
          (Sym.eval ρ em.opts.vyper)).reverse ++ (em.stack ρ).drop consumed) := by
  set keep := keepCount (em.model.take consumed).reverse goal with hkeep
  obtain ⟨hle, htake⟩ := keepCount_spec (em.model.take consumed).reverse goal
  rw [← hkeep] at hle htake
  have hlen : (em.model.take consumed).length = consumed := by simp [hc]
  rw [length_reverse, hlen] at hle
  refine ⟨((em.model.take consumed).take (consumed - keep)).map (Sym.eval ρ em.opts.vyper), ?_, ?_⟩
  · simp
    omega
  -- The kept items are the lowest of the consumed ones.
  have hkept : (em.model.take consumed).drop (consumed - keep) = (goal.take keep).reverse := by
    rw [← htake, take_reverse, reverse_reverse, hlen]
  have hsplit : em.model.take consumed =
      (em.model.take consumed).take (consumed - keep) ++ (goal.take keep).reverse := by
    rw [← hkept, take_append_drop]
  calc em.stack ρ
      = (em.model.take consumed ++ em.model.drop consumed).map (Sym.eval ρ em.opts.vyper) := by
        rw [take_append_drop, stack]
    _ = _ := by
        conv_lhs => rw [hsplit]
        simp only [map_append, append_assoc, map_reverse, stack, map_drop]

/-- Rearranging the stack. `Emitter::materialize` always returns. If it returns code, then on every
stack that the emitter's model describes the code replaces the top `consumed` items by the values of
the goal, the bottom first. The deeper items stay, memory changes at most in its first 64 bytes, and
the emitter's new model describes the new stack. -/
theorem materialize_correct (consumed : ℕ) (goal : List Sym) :
    ∃ r, Run.Safe (fun _ => True) r ∧ (∃ n₀, ∀ n ≥ n₀, materialize n em consumed goal = some r) ∧
      ∀ em', r = .ok em' → (∀ g ∈ goal, g.isPure) → ∀ ρ : Valuation,
        consumed ≤ em.model.length ∧
        ∃ c, em'.code ρ.address = em.code ρ.address ++ c ∧
          ∀ (st deep : List Word) (m : Memory), st = em.stack ρ ++ deep →
            ∃ m' : Memory, (∀ i, 0x40 ≤ i → m' i = m i) ∧
              Executes ρ.world c ⟨st, m⟩
                ⟨(goal.map (Sym.eval ρ em.opts.vyper)).reverse ++ st.drop consumed, m'⟩ ∧
              em'.stack ρ ++ deep =
                (goal.map (Sym.eval ρ em.opts.vyper)).reverse ++ st.drop consumed := by
  obtain ⟨r, hsafe, n₀, hends⟩ := materialize_ends em consumed goal
  refine ⟨r, hsafe, ⟨n₀, hends⟩, ?_⟩
  rintro em' rfl hpure ρ
  have hrun := hends n₀ le_rfl
  unfold materialize at hrun
  by_cases hc : em.model.length < consumed
  · rw [if_pos hc] at hrun
    cases hrun
  rw [if_neg hc] at hrun
  set keep := keepCount (em.model.take consumed).reverse goal with hkeep
  cases hv : em.values (goal.drop keep) with
  | error e => simp [hv] at hrun
  | ok em₁ =>
    simp only [hv] at hrun
    obtain ⟨he₁, hs₁⟩ := emits_values (ρ := ρ) (goal.drop keep)
      (fun g hg => hpure g (List.mem_of_mem_drop hg)) hv
    obtain ⟨garbage, hglen, hsplit⟩ := stack_split (ρ := ρ) goal (not_lt.1 hc)
    rw [← hkeep] at hglen hsplit
    set words := (goal.drop keep).map (Sym.eval ρ em.opts.vyper) with hwords
    have hm : (goal.drop keep).length = words.length := by simp [hwords]
    rw [hm] at hrun
    -- At the start of the loop every fresh value is in the order in which it was pushed.
    have hregion : Region words
        (sortedTags words.length ++ List.replicate (consumed - keep) none)
        (words.reverse ++ garbage) := by
      refine ⟨by simp [hglen], fun p j hp => ?_⟩
      rw [getElem?_initial] at hp
      rw [List.getElem?_append_left (by simpa using hp.1), List.getElem?_reverse hp.1, hp.2]
    rw [hsplit, ← List.append_assoc] at hs₁
    obtain ⟨he₂, hs₂⟩ := emits_sortLoop n₀ (tagged_initial _ _) hregion hs₁ hrun
    have hgoal : (goal.map (Sym.eval ρ em.opts.vyper)).reverse =
        words.reverse ++ ((goal.take keep).map (Sym.eval ρ em.opts.vyper)).reverse := by
      rw [hwords, ← List.reverse_append, ← List.map_append, List.take_append_drop]
    have hfinal : em'.stack ρ = (goal.map (Sym.eval ρ em.opts.vyper)).reverse ++
        (em.stack ρ).drop consumed := by
      rw [hs₂, hgoal, List.append_assoc]
    refine ⟨not_lt.1 hc, ?_⟩
    obtain ⟨c, hcode, hexec⟩ := (he₁.trans he₂).code
    refine ⟨c, hcode, ?_⟩
    rintro st deep m rfl
    obtain ⟨m', hm', hexec⟩ := hexec deep m
    have hlen : consumed ≤ (em.stack ρ).length := by simpa [stack] using not_lt.1 hc
    have hresult : em'.stack ρ ++ deep = (goal.map (Sym.eval ρ em.opts.vyper)).reverse ++
        (em.stack ρ ++ deep).drop consumed := by
      rw [hfinal, List.drop_append_of_le_length hlen, List.append_assoc]
    exact ⟨m', hm', hresult ▸ hexec, hresult⟩

/-- Two stack items change places, without `PUSH0` and shifts. -/
theorem materialize_correct_twoSlots :
    ∃ em', materialize 6 (new ⟨false, false, false⟩ 0 2) 2 [.slot 0, .slot 1] = some (.ok em') ∧
      ∀ ρ : Valuation, ∃ c, em'.code ρ.address = c ∧ ∀ m : Memory,
        ∃ m' : Memory, (∀ i, 0x40 ≤ i → m' i = m i) ∧
          Executes ρ.world c ⟨[ρ.slot 0, ρ.slot 1], m⟩ ⟨[ρ.slot 1, ρ.slot 0], m'⟩ := by
  obtain ⟨r, -, ⟨n₀, hends⟩, hcorrect⟩ :=
    materialize_correct (new ⟨false, false, false⟩ 0 2) 2 [.slot 0, .slot 1]
  have hsix : materialize 6 (new ⟨false, false, false⟩ 0 2) 2 [.slot 0, .slot 1] =
      materialize (n₀ + 6) (new ⟨false, false, false⟩ 0 2) 2 [.slot 0, .slot 1] := by
    rw [Nat.add_comm]
    exact (sortLoop_mono n₀ (by rfl)).symm
  have hr : materialize 6 (new ⟨false, false, false⟩ 0 2) 2 [.slot 0, .slot 1] = some r := by
    rw [hsix, hends _ (by omega)]
  obtain ⟨em', rfl⟩ : ∃ em', r = .ok em' := ⟨_, (Option.some.inj hr).symm⟩
  refine ⟨em', hr, fun ρ => ?_⟩
  obtain ⟨-, c, hcode, hexec⟩ := hcorrect em' rfl (by decide) ρ
  refine ⟨c, hcode, fun m => ?_⟩
  obtain ⟨m', hm', hrun, -⟩ := hexec [ρ.slot 0, ρ.slot 1] [] m rfl
  exact ⟨m', hm', hrun⟩

end Emitter

end Univdreams.Compile
