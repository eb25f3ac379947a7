import Mathlib.Data.Finmap

/-!
# The values of a table

A table of keys and values is an `AList`. Its values, in the order of the entries, are a list of
which only the multiset matters: two tables that look up the same have the same values up to the
order, and to insert and to remove a key adds and takes away one value.
-/

namespace Univdreams

open AList List

namespace Tables

open scoped List

variable {κ ν : Type} [DecidableEq κ]

/-- The values of a table. -/
def vals (s : AList fun _ : κ => ν) : List ν := s.entries.map Sigma.snd

/-- The table with another value at every key. -/
def mapVals (f : ν → ν) (s : AList fun _ : κ => ν) : AList fun _ : κ => ν where
  entries := s.entries.map fun e => ⟨e.1, f e.2⟩
  nodupKeys := by
    have hkeys : (s.entries.map fun e => (⟨e.1, f e.2⟩ : Sigma fun _ : κ => ν)).keys =
        s.entries.keys := by simp [List.keys]
    unfold List.NodupKeys
    rw [hkeys]
    exact s.nodupKeys

variable {s s' : AList fun _ : κ => ν} {a : κ} {b : ν}

theorem mem_vals : b ∈ vals s ↔ ∃ a, s.lookup a = some b := by
  unfold vals
  rw [mem_map]
  constructor
  · rintro ⟨⟨a, b'⟩, hmem, rfl⟩
    exact ⟨a, mem_lookup_iff.2 hmem⟩
  · rintro ⟨a, ha⟩
    exact ⟨⟨a, b⟩, mem_lookup_iff.1 ha, rfl⟩

theorem lookup_insert_eq_some {x : κ} {y : ν} : (s.insert a b).lookup x = some y ↔
    x = a ∧ b = y ∨ x ≠ a ∧ s.lookup x = some y := by
  by_cases h : x = a
  · subst h
    simp
  · simp [h, lookup_insert_ne h]

theorem lookup_erase_eq_some {x : κ} {y : ν} :
    (s.erase a).lookup x = some y ↔ x ≠ a ∧ s.lookup x = some y := by
  by_cases h : x = a
  · subst h
    simp
  · simp [h, lookup_erase_ne h]

section Entries

variable {P : κ → ν → Prop} (h : ∀ x y, s.lookup x = some y → P x y)

include h

/-- What every entry has, every entry has behind an insert of an entry that has it. -/
theorem forall_insert (hab : P a b) : ∀ x y, (s.insert a b).lookup x = some y → P x y := by
  intro x y hy
  obtain ⟨rfl, rfl⟩ | ⟨-, hy⟩ := lookup_insert_eq_some.1 hy
  · exact hab
  · exact h x y hy

theorem forall_erase : ∀ x y, (s.erase a).lookup x = some y → P x y :=
  fun x y hy => h x y (lookup_erase_eq_some.1 hy).2

end Entries

/-- Tables that look up the same have the same values. -/
theorem vals_perm (h : ∀ a, s.lookup a = s'.lookup a) : (vals s).Perm (vals s') := by
  have hmap : s.toFinmap = s'.toFinmap := Finmap.ext_lookup fun a => by
    rw [Finmap.lookup_toFinmap, Finmap.lookup_toFinmap, h a]
  exact (toFinmap_eq.1 hmap).map Sigma.snd

theorem vals_insert : vals (s.insert a b) = b :: vals (s.erase a) := rfl

/-- The value at a key, and the others. -/
theorem vals_perm_cons (h : s.lookup a = some b) : (vals s).Perm (b :: vals (s.erase a)) := by
  rw [← vals_insert]
  refine vals_perm fun a' => ?_
  by_cases ha : a' = a
  · rw [ha, h, lookup_insert]
  · rw [lookup_insert_ne ha]

theorem vals_erase_perm (h : s.lookup a = none) : (vals (s.erase a)).Perm (vals s) := by
  refine vals_perm fun a' => ?_
  by_cases ha : a' = a
  · rw [ha, h, lookup_erase]
  · rw [lookup_erase_ne ha]

/-- A new key adds a value. -/
theorem vals_insert_perm (h : s.lookup a = none) : (vals (s.insert a b)).Perm (b :: vals s) :=
  (vals_erase_perm h).cons b

/-- Looking up in a table whose values are mapped. -/
theorem lookup_mapVals (f : ν → ν) (a : κ) : (mapVals f s).lookup a = (s.lookup a).map f := by
  have hiff : ∀ b, (mapVals f s).lookup a = some b ↔ (s.lookup a).map f = some b := by
    intro b
    rw [Option.map_eq_some_iff]
    constructor
    · intro h
      obtain ⟨⟨a', c⟩, hmem, heq⟩ := mem_map.1 (mem_lookup_iff.1 h)
      cases heq
      exact ⟨c, mem_lookup_iff.2 hmem, rfl⟩
    · rintro ⟨c, hc, rfl⟩
      exact mem_lookup_iff.2 (mem_map.2 ⟨_, mem_lookup_iff.1 hc, rfl⟩)
  exact Option.ext hiff

/-! ## What the values hold -/

variable {β : Type}

/-- What all the values hold. -/
def held (f : ν → List β) (s : AList fun _ : κ => ν) : List β := (vals s).flatMap f

/-- What the value at a key holds, which is nothing without one. -/
def heldAt (f : ν → List β) (s : AList fun _ : κ => ν) (a : κ) : List β := (s.lookup a).elim [] f

variable {f : ν → List β}

theorem held_insert : held f (s.insert a b) = f b ++ held f (s.erase a) := rfl

theorem held_perm_append : (held f s).Perm (heldAt f s a ++ held f (s.erase a)) := by
  unfold heldAt
  cases h : s.lookup a with
  | none => exact ((vals_erase_perm h).flatMap_right f).symm
  | some b => exact (vals_perm_cons h).flatMap_right f

theorem heldAt_insert : heldAt f (s.insert a b) a = f b := by
  unfold heldAt
  rw [lookup_insert]
  rfl

theorem heldAt_insert_ne {a' : κ} (h : a' ≠ a) : heldAt f (s.insert a b) a' = heldAt f s a' := by
  unfold heldAt
  rw [lookup_insert_ne h]

theorem heldAt_erase : heldAt f (s.erase a) a = [] := by
  unfold heldAt
  rw [lookup_erase]
  rfl

theorem heldAt_erase_ne {a' : κ} (h : a' ≠ a) : heldAt f (s.erase a) a' = heldAt f s a' := by
  unfold heldAt
  rw [lookup_erase_ne h]

/-- What a table holds is determined by what it holds at each key. -/
theorem held_perm (h : ∀ a, heldAt f s a = heldAt f s' a) : (held f s).Perm (held f s') := by
  induction s using AList.insertRec generalizing s' with
  | H0 =>
    have hnil : held f s' = [] := by
      unfold held
      rw [flatMap_eq_nil_iff]
      intro b hb
      obtain ⟨a, ha⟩ := mem_vals.1 hb
      have := h a
      simpa [heldAt, ha] using this.symm
    rw [hnil]
    exact .refl _
  | IH a b s ha ih =>
    have hnone : s.lookup a = none := lookup_eq_none.2 ha
    have hrest : (held f s).Perm (held f (s'.erase a)) := by
      refine ih fun a' => ?_
      by_cases heq : a' = a
      · rw [heq, heldAt_erase, heldAt, hnone]
        rfl
      · rw [heldAt_erase_ne heq, ← h a', heldAt_insert_ne heq]
    have hb : heldAt f s' a = f b := (h a).symm.trans heldAt_insert
    calc held f (s.insert a b)
        = f b ++ held f (s.erase a) := held_insert
      _ ~ f b ++ held f s := ((vals_erase_perm hnone).flatMap_right f).append_left (f b)
      _ ~ f b ++ held f (s'.erase a) := hrest.append_left (f b)
      _ ~ held f s' := by
        rw [← hb]
        exact held_perm_append.symm

theorem heldAt_mapVals {g : ν → ν} (h : ∀ b, f (g b) = f b) (a : κ) :
    heldAt f (mapVals g s) a = heldAt f s a := by
  unfold heldAt
  rw [lookup_mapVals]
  cases s.lookup a with
  | none => rfl
  | some b => exact h b

end Tables

end Univdreams
