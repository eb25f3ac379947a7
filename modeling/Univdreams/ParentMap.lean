import Mathlib.Logic.Function.Basic
import Mathlib.Logic.Relation
import Mathlib.Tactic

/-!
# Trees as parent maps

A parent map gives some nodes a parent. Where a rank decreases from every node but the root to its
parent, the map is a tree, and the ancestors of a node form a chain. A node can be moved to one of
its ancestors; the chains through it then lose what stood between.
-/

namespace Univdreams.ParentMap

open Function Relation.ReflTransGen

variable {ν : Type}

/-- The nodes that have a parent, with it. -/
abbrev Parents (ν : Type) := ν → Option ν

/-- `Anc D a b`: going from parent to parent from `b` arrives at `a`. -/
def Anc (D : Parents ν) (a b : ν) : Prop := Relation.ReflTransGen (fun x y => D x = some y) b a

/-- A node with a parent. -/
def Known (D : Parents ν) (b : ν) : Prop := (D b).isSome

/-- A tree: the root is its own parent, and every other parent has a smaller rank. -/
structure Ranked (D : Parents ν) (rank : ν → ℕ) (root : ν) : Prop where
  root_parent : D root = some root
  lt : ∀ {b d}, D b = some d → b ≠ root → rank d < rank b
  known : ∀ {b d}, D b = some d → Known D d
  inj : ∀ {a b}, Known D a → Known D b → rank a = rank b → a = b

variable {D : Parents ν} {rank : ν → ℕ} {root : ν} {a b d u x y : ν}

theorem Anc.refl (D : Parents ν) (b : ν) : Anc D b b := Relation.ReflTransGen.refl

theorem Anc.trans (hab : Anc D a b) (hbu : Anc D b u) : Anc D a u :=
  Relation.ReflTransGen.trans hbu hab

/-- The ancestors of a node are the node and the ancestors of its parent. -/
theorem Anc.of_parent (h : D b = some d) (had : Anc D a d) : Anc D a b :=
  head h had

theorem Anc.cases (h : Anc D a b) : a = b ∨ ∃ d, D b = some d ∧ Anc D a d := by
  obtain rfl | ⟨d, hd, h⟩ := cases_head h
  · exact .inl rfl
  · exact .inr ⟨d, hd, h⟩

/-- Induction along a chain, from its upper end. -/
theorem Anc.induction {P : ν → Prop} (h : Anc D a b) (base : P a)
    (step : ∀ u d, D u = some d → Anc D a d → P d → P u) : P b :=
  head_induction_on h base fun hd hda ih => step _ _ hd hda ih

theorem Anc.known_left (hR : Ranked D rank root) (h : Anc D a b) (hb : Known D b) : Known D a := by
  induction h with
  | refl => exact hb
  | tail _ hd _ => exact hR.known hd

namespace Ranked

variable (hR : Ranked D rank root)

include hR

theorem anc_rank (h : Anc D a b) : rank a ≤ rank b := by
  refine h.induction (P := fun b => rank a ≤ rank b) (le_refl _) fun u d hd _ ih => ?_
  by_cases hu : u = root
  · rw [hu, hR.root_parent, Option.some.injEq] at hd
    rwa [hu, hd]
  · exact le_of_lt (lt_of_le_of_lt ih (hR.lt hd hu))

theorem anc_eq (h : Anc D a b) (hb : Known D b) (hrank : rank b ≤ rank a) : a = b :=
  hR.inj (h.known_left hR hb) hb (le_antisymm (hR.anc_rank h) hrank)

theorem anc_root (hb : Known D b) : Anc D root b := by
  -- The rank decreases on the way to the root.
  induction hn : rank b using Nat.strong_induction_on generalizing b with
  | _ n ih =>
    by_cases hroot : b = root
    · rw [hroot]
      exact .refl D root
    obtain ⟨d, hd⟩ := Option.isSome_iff_exists.1 hb
    have hlt := hR.lt hd hroot
    exact .of_parent hd (ih (rank d) (hn ▸ hlt) (hR.known hd) rfl)

theorem eq_root (h : Anc D a root) : a = root := by
  have hk : Known D root := by
    rw [Known, hR.root_parent]
    rfl
  have hback := hR.anc_root (h.known_left hR hk)
  exact hR.anc_eq h hk (hR.anc_rank hback)

/-- Two ancestors of one node are on one chain, the one of smaller rank above. -/
theorem anc_linear (hx : Anc D x b) (hy : Anc D y b) (hb : Known D b)
    (hrank : rank x ≤ rank y) : Anc D x y := by
  induction hn : rank b using Nat.strong_induction_on generalizing b with
  | _ n ih =>
    obtain rfl | ⟨d, hd, hyd⟩ := hy.cases
    · exact hx
    obtain rfl | ⟨d', hd', hxd⟩ := hx.cases
    · -- The lower one has no greater rank, so both are the node.
      have hyb := hR.anc_eq hy hb hrank
      rw [hyb]
      exact .refl D _
    obtain rfl : d = d' := by
      rw [hd, Option.some.injEq] at hd'
      exact hd'
    by_cases hroot : b = root
    · subst hroot
      have hxr := hR.eq_root hx
      have hyr := hR.eq_root hy
      rw [hxr, hyr]
      exact .refl D b
    · exact ih (rank d) (hn ▸ hR.lt hd hroot) hxd hyd (hR.known hd) rfl

end Ranked

/-! ## Moving a node -/

section Move

variable [DecidableEq ν] {new : ν}

/-- A node outside of the chain changes nothing. -/
theorem anc_update_of_not (hu : ¬Anc D b u) : Anc (update D b (some new)) x u ↔ Anc D x u := by
  have hne : ∀ {w}, ¬Anc D b w → w ≠ b := by
    rintro w hw rfl
    exact hw (.refl D w)
  constructor
  · intro h
    revert hu
    refine h.induction (P := fun w => ¬Anc D b w → Anc D x w) (fun _ => .refl D x) ?_
    intro w e he _ ih hw
    rw [update_of_ne (hne hw)] at he
    exact .of_parent he (ih fun hbe => hw (.of_parent he hbe))
  intro h
  revert hu
  refine h.induction (P := fun w => ¬Anc D b w → Anc (update D b (some new)) x w)
    (fun _ => .refl _ x) ?_
  intro w e he _ ih hw
  refine .of_parent (d := e) ?_ (ih fun hbe => hw (.of_parent he hbe))
  rw [update_of_ne (hne hw)]
  exact he

/-- Nodes of smaller rank do not have the moved node on their chain. -/
theorem anc_update_of_lt (hR : Ranked D rank root) (hu : rank u < rank b) :
    Anc (update D b (some new)) x u ↔ Anc D x u :=
  anc_update_of_not fun h => absurd (hR.anc_rank h) (by omega)

/-- A chain through the moved node is its lower part and the chain of the new parent. -/
theorem anc_update_iff (hR : Ranked D rank root) (hb : Known D b) (hnew : rank new < rank b)
    (hu : Anc D b u) :
    Anc (update D b (some new)) x u ↔ Anc D x u ∧ rank b ≤ rank x ∨ Anc D x new := by
  have hself : Anc (update D b (some new)) x b ↔ x = b ∨ Anc D x new := by
    constructor
    · intro h
      obtain h | ⟨e, he, h⟩ := h.cases
      · exact .inl h
      rw [update_self, Option.some.injEq] at he
      rw [← he] at h
      exact .inr ((anc_update_of_lt hR hnew).1 h)
    rintro (rfl | h)
    · exact .refl _ _
    · exact .of_parent (update_self ..) ((anc_update_of_lt hR hnew).2 h)
  refine hu.induction (P := fun w => Anc (update D b (some new)) x w ↔
    Anc D x w ∧ rank b ≤ rank x ∨ Anc D x new) ?_ ?_
  · rw [hself]
    refine or_congr_left ⟨?_, fun h => hR.anc_eq h.1 hb h.2⟩
    rintro rfl
    exact ⟨.refl D x, le_refl _⟩
  intro w e he hbe ih
  by_cases hw : w = b
  · subst hw
    rw [hself]
    refine or_congr_left ⟨?_, fun h => hR.anc_eq h.1 hb h.2⟩
    rintro rfl
    exact ⟨.refl D x, le_refl _⟩
  have hstep : update D b (some new) w = some e := by
    rw [update_of_ne hw]
    exact he
  constructor
  · intro h
    obtain rfl | ⟨e', he', h⟩ := h.cases
    · exact .inl ⟨.refl D x, hR.anc_rank (.of_parent he hbe)⟩
    rw [hstep, Option.some.injEq] at he'
    obtain ⟨hx, hr⟩ | hx := ih.1 (he' ▸ h)
    · exact .inl ⟨.of_parent he hx, hr⟩
    · exact .inr hx
  rintro (⟨h, hr⟩ | h)
  · obtain rfl | ⟨e', he', h⟩ := h.cases
    · exact .refl _ _
    · rw [he, Option.some.injEq] at he'
      exact .of_parent hstep (ih.2 (.inl ⟨he' ▸ h, hr⟩))
  · exact .of_parent hstep (ih.2 (.inr h))

/-- The map stays a tree where the new parent has a smaller rank. -/
theorem Ranked.update (hR : Ranked D rank root) (hb : b ≠ root) (hk : Known D new)
    (hnew : rank new < rank b) (hinj : ∀ {a}, Known D a → rank a = rank b → a = b) :
    Ranked (update D b (some new)) rank root where
  root_parent := by
    rw [update_of_ne hb.symm]
    exact hR.root_parent
  lt {w d} hd hw := by
    by_cases hwb : w = b
    · subst hwb
      rw [update_self, Option.some.injEq] at hd
      rwa [← hd]
    · rw [update_of_ne hwb] at hd
      exact hR.lt hd hw
  known {w d} hd := by
    have hkd : Known D d := by
      by_cases hwb : w = b
      · subst hwb
        rw [update_self, Option.some.injEq] at hd
        rwa [← hd]
      · rw [update_of_ne hwb] at hd
        exact hR.known hd
    by_cases hdb : d = b
    · rw [Known, hdb, update_self]
      rfl
    · rwa [Known, update_of_ne hdb]
  inj {a c} ha hc hrank := by
    by_cases hab : a = b
    · by_cases hcb : c = b
      · rw [hab, hcb]
      · rw [Known, update_of_ne hcb] at hc
        rw [hab, hinj hc (by rw [← hrank, hab])]
    rw [Known, update_of_ne hab] at ha
    by_cases hcb : c = b
    · rw [hcb, hinj ha (by rw [hrank, hcb])]
    · rw [Known, update_of_ne hcb] at hc
      exact hR.inj ha hc hrank

/-- A node that moves to an ancestor gives no node a new ancestor. -/
theorem anc_of_update (hR : Ranked D rank root) (hd : D b = some d) (hnew : Anc D new d)
    (hlt : rank new < rank b) (h : Anc (update D b (some new)) x u) : Anc D x u := by
  by_cases hu : Anc D b u
  · have hb : Known D b := by
      rw [Known, hd]
      rfl
    obtain h | h := (anc_update_iff hR hb hlt hu).1 h
    · exact h.1
    · exact (h.trans (hnew.trans (.of_parent hd (.refl D d)))).trans hu
  · exact (anc_update_of_not hu).1 h

end Move

end Univdreams.ParentMap
