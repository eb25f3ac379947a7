import Mathlib

/-!
# Tilings of an interval by extents

An extent is a range of positions. A list of extents tiles `[0, n)` when every position below `n`
lies in exactly one of them and no other position does. `Tiles` does not depend on the order of the
extents. `Contig` is the ordered form: each extent starts where the one before it ends, so a
contiguous run from `0` to `n` tiles `[0, n)`.

Two constructions produce tilings. `gaps` is the complement of a list of extents, computed by one
pass with a cursor: extents and gaps together always cover, and they tile when the extents do not
overlap. `contig_moved` is the re-layout of a contiguous run whose extents change their lengths:
each extent moves by the total change of the extents that end at or before its start. Moving one
nonempty extent of a tiling to any other start breaks it (`Tiles.not_tiles_move`).
-/

namespace Univdreams

open List

variable {n : ℕ}

/-- A range of positions: `len` of them from `start` on. -/
structure Extent where
  start : ℕ
  len : ℕ
  deriving DecidableEq, Repr

namespace Extent

variable {x : Extent} {xs : List Extent}

/-- The position just past the extent. -/
def stop (x : Extent) : ℕ := x.start + x.len

instance : Membership ℕ Extent := ⟨fun x i => x.start ≤ i ∧ i < x.stop⟩

instance (x : Extent) (i : ℕ) : Decidable (i ∈ x) :=
  inferInstanceAs (Decidable (x.start ≤ i ∧ i < x.stop))

theorem mem_def {i : ℕ} : i ∈ x ↔ x.start ≤ i ∧ i < x.start + x.len := Iff.rfl

end Extent

/-- The extents are pairwise disjoint and cover exactly `[0, n)`. -/
structure Tiles (xs : List Extent) (n : ℕ) : Prop where
  /-- No position lies in two of the extents. -/
  disjoint : xs.Pairwise fun x y => ∀ i, i ∈ x → i ∉ y
  /-- The positions in the extents are those below `n`. -/
  cover : ∀ i, (∃ x ∈ xs, i ∈ x) ↔ i < n

/-- The number of extents that contain a position. -/
def coverage (xs : List Extent) (i : ℕ) : ℕ := xs.countP fun x => decide (i ∈ x)

theorem coverage_cons (x : Extent) (xs : List Extent) (i : ℕ) :
    coverage (x :: xs) i = coverage xs i + if i ∈ x then 1 else 0 := by
  simp [coverage, countP_cons]

theorem coverage_eq_zero {i : ℕ} : coverage xs i = 0 ↔ ∀ x ∈ xs, i ∉ x := by
  simp [coverage, countP_eq_zero]

/-- Pairwise disjoint extents cover no position twice, and conversely. -/
theorem pairwise_disjoint_iff_coverage :
    (xs.Pairwise fun x y => ∀ i, i ∈ x → i ∉ y) ↔ ∀ i, coverage xs i ≤ 1 := by
  induction xs with
  | nil => simp [coverage]
  | cons x xs ih =>
    rw [pairwise_cons, ih]
    constructor
    · rintro ⟨hx, hxs⟩ i
      rw [coverage_cons]
      split_ifs with hi
      · have h0 : coverage xs i = 0 := coverage_eq_zero.2 fun y hy => hx y hy i hi
        omega
      · exact hxs i
    intro h
    refine ⟨fun y hy i hi hiy => ?_, fun i => ?_⟩
    · have hi' := h i
      rw [coverage_cons, if_pos hi] at hi'
      exact coverage_eq_zero.1 (by omega : coverage xs i = 0) y hy hiy
    have hi' := h i
    rw [coverage_cons] at hi'
    omega

/-- A tiling covers each position below `n` once and no other position. -/
theorem tiles_iff_coverage : Tiles xs n ↔ ∀ i, coverage xs i = if i < n then 1 else 0 := by
  have hex : ∀ i, (∃ x ∈ xs, i ∈ x) ↔ coverage xs i ≠ 0 := fun i => by
    rw [ne_eq, coverage_eq_zero]
    push Not
    rfl
  constructor
  · intro h i
    have hle := pairwise_disjoint_iff_coverage.1 h.disjoint i
    have hi := (hex i).symm.trans (h.cover i)
    split_ifs with hn
    · have := hi.2 hn
      omega
    · by_contra hne
      exact hn (hi.1 hne)
  intro h
  refine ⟨pairwise_disjoint_iff_coverage.2 fun i => ?_, fun i => ?_⟩
  · rw [h i]
    split_ifs <;> omega
  · rw [hex i, h i]
    split_ifs with hn <;> simp [hn]

/-- The order of the extents does not matter. -/
theorem Tiles.perm {xs ys : List Extent} (h : Tiles xs n) (hp : xs.Perm ys) : Tiles ys n := by
  rw [tiles_iff_coverage] at h ⊢
  intro i
  rw [← h i]
  exact (hp.countP_eq _).symm

/-- An extent of a tiling ends inside the interval, when it is not empty. -/
theorem Tiles.stop_le (h : Tiles xs n) (hx : x ∈ xs) (hpos : 0 < x.len) : x.stop ≤ n := by
  have hmem : x.start + x.len - 1 ∈ x := by rw [Extent.mem_def]; omega
  have hlt := (h.cover _).1 ⟨x, hx, hmem⟩
  unfold Extent.stop
  omega

/-- Moving a nonempty extent of a tiling away from its start leaves a position uncovered. -/
theorem Tiles.not_tiles_move {s : ℕ} (h : Tiles (x :: xs) n) (hpos : 0 < x.len) (hs : s ≠ x.start) :
    ¬Tiles (⟨s, x.len⟩ :: xs) n := by
  intro h'
  rw [tiles_iff_coverage] at h h'
  -- A position of the old extent that the new one misses: the first when it moves up, the last
  -- when it moves down.
  obtain ⟨i, hold, hnew⟩ : ∃ i, i ∈ x ∧ i ∉ (⟨s, x.len⟩ : Extent) := by
    rcases lt_or_gt_of_ne hs with hlt | hgt
    · exact ⟨x.start + x.len - 1, by rw [Extent.mem_def]; omega,
        by rw [Extent.mem_def]; simp; omega⟩
    · exact ⟨x.start, by rw [Extent.mem_def]; omega, by rw [Extent.mem_def]; simp; omega⟩
  have e := h i
  have e' := h' i
  rw [coverage_cons, if_pos hold] at e
  rw [coverage_cons, if_neg hnew] at e'
  omega

/-! ## Contiguous runs -/

/-- The extents follow one another without a gap, the first from `a` on and the last up to `b`. -/
def Contig (a : ℕ) : List Extent → ℕ → Prop
  | [], b => a = b
  | x :: xs, b => x.start = a ∧ Contig x.stop xs b

theorem Contig.le {a b : ℕ} (h : Contig a xs b) : a ≤ b := by
  induction xs generalizing a with
  | nil => exact le_of_eq h
  | cons x xs ih =>
    have := ih h.2
    have := h.1
    unfold Extent.stop at *
    omega

/-- Every extent of a run lies between its ends. -/
theorem Contig.bounds {a b : ℕ} (h : Contig a xs b) (hx : x ∈ xs) : a ≤ x.start ∧ x.stop ≤ b := by
  induction xs generalizing a with
  | nil => simp at hx
  | cons y ys ih =>
    obtain ⟨hy, hys⟩ := h
    rcases mem_cons.1 hx with rfl | hx
    · exact ⟨le_of_eq hy.symm, hys.le⟩
    obtain ⟨h1, h2⟩ := ih hys hx
    have hle : y.start ≤ y.stop := Nat.le_add_right _ _
    exact ⟨by omega, h2⟩

/-- A run covers each position between its ends once. -/
theorem Contig.coverage_eq {a b : ℕ} (h : Contig a xs b) (i : ℕ) :
    coverage xs i = if a ≤ i ∧ i < b then 1 else 0 := by
  induction xs generalizing a with
  | nil =>
    have hab : a = b := h
    rw [if_neg (by omega)]
    rfl
  | cons x xs ih =>
    obtain ⟨hx, hxs⟩ := h
    have hle := hxs.le
    have hmem : i ∈ x ↔ a ≤ i ∧ i < x.stop := by rw [Extent.mem_def, hx, Extent.stop, hx]
    have hax : a ≤ x.stop := by unfold Extent.stop; omega
    rw [coverage_cons, ih hxs]
    simp only [hmem]
    split_ifs <;> omega

/-- A run from the start of the interval to its end tiles it. -/
theorem Contig.tiles (h : Contig 0 xs n) : Tiles xs n := by
  rw [tiles_iff_coverage]
  intro i
  rw [h.coverage_eq i]
  simp

/-- Two runs, one after the other. -/
theorem Contig.append {xs ys : List Extent} {a b c : ℕ} (h : Contig a xs b) (h' : Contig b ys c) :
    Contig a (xs ++ ys) c := by
  induction xs generalizing a with
  | nil =>
    have hab : a = b := h
    rwa [hab]
  | cons x xs ih => exact ⟨h.1, ih h.2⟩

/-- Nonempty extents in the order of their starts that cover `[a, n)`, each position once, are a
run. -/
theorem contig_of_coverage : ∀ {xs : List Extent} {a : ℕ}, a ≤ n →
    (∀ x ∈ xs, 0 < x.len) → (xs.Pairwise fun x y => x.start ≤ y.start) →
    (∀ i, coverage xs i = if a ≤ i ∧ i < n then 1 else 0) → Contig a xs n
  | [], a, han, _, _, hcov => by
    by_contra hne
    have hlt : a < n := lt_of_le_of_ne han hne
    have ha := hcov a
    rw [if_pos ⟨le_rfl, hlt⟩] at ha
    simp [coverage] at ha
  | x :: xs, a, han, hpos, hsort, hcov => by
    obtain ⟨hhead, hsort'⟩ := pairwise_cons.1 hsort
    have hxpos := hpos x (by simp)
    have hin : ∀ i, i ∈ x → coverage xs i = 0 ∧ a ≤ i ∧ i < n := by
      intro i hi
      have hi' := hcov i
      rw [coverage_cons, if_pos hi] at hi'
      split_ifs at hi' with hb
      exact ⟨by omega, hb⟩
    have hfirst := (hin x.start (by rw [Extent.mem_def]; omega)).2
    have hlast := (hin (x.start + x.len - 1) (by rw [Extent.mem_def]; omega)).2
    -- Position `a` is covered, and no extent starts before `x` does.
    have hstart : x.start = a := by
      by_contra hne
      have hlt : a < x.start := by omega
      have ha := hcov a
      rw [if_pos ⟨le_rfl, by omega⟩] at ha
      have hzero : coverage (x :: xs) a = 0 := coverage_eq_zero.2 fun y hy hay => by
        rw [Extent.mem_def] at hay
        rcases mem_cons.1 hy with rfl | hy
        · omega
        · have := hhead y hy
          omega
      omega
    refine ⟨hstart, contig_of_coverage (by unfold Extent.stop; omega)
      (fun y hy => hpos y (by simp [hy])) hsort' fun i => ?_⟩
    have hi := hcov i
    rw [coverage_cons] at hi
    by_cases hix : i ∈ x
    · rw [if_neg (by rw [Extent.mem_def] at hix; unfold Extent.stop; omega)]
      exact (hin i hix).1
    rw [if_neg hix, add_zero] at hi
    rw [hi]
    rw [Extent.mem_def] at hix
    unfold Extent.stop
    split_ifs <;> omega

/-- A tiling by nonempty extents in the order of their starts is a run. -/
theorem Tiles.contig (h : Tiles xs n) (hpos : ∀ x ∈ xs, 0 < x.len)
    (hsort : xs.Pairwise fun x y => x.start ≤ y.start) : Contig 0 xs n := by
  rw [tiles_iff_coverage] at h
  exact contig_of_coverage (Nat.zero_le n) hpos hsort fun i => by simpa using h i

/-! ## Gaps -/

/-- The gap from `a` to `b`, when there is one. -/
def gap (a b : ℕ) : List Extent := if a < b then [⟨a, b - a⟩] else []

/-- The gaps that the extents leave in `[cursor, n)`. -/
def gaps (cursor : ℕ) : List Extent → ℕ → List Extent
  | [], n => gap cursor n
  | x :: xs, n => gap cursor x.start ++ gaps (max cursor x.stop) xs n

/-- The extents with the gaps before, between and after them. -/
def fillGaps (cursor : ℕ) : List Extent → ℕ → List Extent
  | [], n => gap cursor n
  | x :: xs, n => gap cursor x.start ++ x :: fillGaps (max cursor x.stop) xs n

theorem mem_gap {a b : ℕ} : x ∈ gap a b ↔ a < b ∧ x = ⟨a, b - a⟩ := by
  unfold gap
  split_ifs with h <;> simp [h]

theorem contig_gap {a b : ℕ} (h : a ≤ b) : Contig a (gap a b) b := by
  unfold gap
  split_ifs with hlt
  · exact ⟨rfl, by simp [Contig, Extent.stop]; omega⟩
  · have hab : a = b := by omega
    exact hab

theorem len_pos_of_mem_gaps {x : Extent} :
    ∀ {xs : List Extent} {c n : ℕ}, x ∈ gaps c xs n → 0 < x.len
  | [], c, n, h => by
    obtain ⟨hlt, rfl⟩ := mem_gap.1 h
    exact Nat.sub_pos_of_lt hlt
  | y :: ys, c, n, h => by
    rcases mem_append.1 h with h | h
    · obtain ⟨hlt, rfl⟩ := mem_gap.1 h
      exact Nat.sub_pos_of_lt hlt
    · exact len_pos_of_mem_gaps h

/-- The gaps stay inside the interval when the extents do. -/
theorem stop_le_of_mem_gaps {x : Extent} :
    ∀ {xs : List Extent} {c n : ℕ}, (∀ y ∈ xs, y.start ≤ n) → x ∈ gaps c xs n → x.stop ≤ n
  | [], c, n, _, h => by
    obtain ⟨hlt, rfl⟩ := mem_gap.1 h
    simp only [Extent.stop]
    omega
  | y :: ys, c, n, hle, h => by
    rcases mem_append.1 h with h | h
    · obtain ⟨hlt, rfl⟩ := mem_gap.1 h
      have := hle y (by simp)
      simp only [Extent.stop]
      omega
    · exact stop_le_of_mem_gaps (fun z hz => hle z (by simp [hz])) h

/-- Extents and gaps together cover the interval, also where the extents overlap. -/
theorem mem_or_mem_gaps {i : ℕ} : ∀ {xs : List Extent} {c n : ℕ}, c ≤ i → i < n →
    (∃ x ∈ xs, i ∈ x) ∨ ∃ g ∈ gaps c xs n, i ∈ g
  | [], c, n, hc, hn => by
    refine .inr ⟨⟨c, n - c⟩, mem_gap.2 ⟨by omega, rfl⟩, ?_⟩
    rw [Extent.mem_def]
    simp
    omega
  | x :: xs, c, n, hc, hn => by
    rcases lt_or_ge i x.start with hlo | hlo
    · refine .inr ⟨⟨c, x.start - c⟩, mem_append_left _ (mem_gap.2 ⟨by omega, rfl⟩), ?_⟩
      rw [Extent.mem_def]
      simp
      omega
    rcases lt_or_ge i x.stop with hhi | hhi
    · exact .inl ⟨x, by simp, hlo, hhi⟩
    have ih : (∃ y ∈ xs, i ∈ y) ∨ ∃ g ∈ gaps (max c x.stop) xs n, i ∈ g :=
      mem_or_mem_gaps (max_le hc hhi) hn
    rcases ih with ⟨y, hy, hi⟩ | ⟨g, hg, hi⟩
    · exact .inl ⟨y, by simp [hy], hi⟩
    · exact .inr ⟨g, mem_append_right _ hg, hi⟩

/-- The filled list is the extents and the gaps, in another order. -/
theorem fillGaps_perm (n : ℕ) : ∀ (xs : List Extent) (c : ℕ),
    (fillGaps c xs n).Perm (xs ++ gaps c xs n)
  | [], c => by simp [fillGaps, gaps]
  | x :: xs, c => by
    have ih := fillGaps_perm n xs (max c x.stop)
    have hswap : (gap c x.start ++ (xs ++ gaps (max c x.stop) xs n)).Perm
        (xs ++ (gap c x.start ++ gaps (max c x.stop) xs n)) := by
      rw [← append_assoc, ← append_assoc]
      exact perm_append_comm.append_right _
    rw [fillGaps, gaps]
    exact perm_middle.trans (((ih.append_left _).trans hswap).cons x)

/-- Extents in order that do not overlap, with their gaps, are a contiguous run. -/
theorem contig_fillGaps : ∀ {xs : List Extent} {c : ℕ}, c ≤ n →
    (∀ x ∈ xs, x.stop ≤ n) → List.IsChain (fun x y => x.stop ≤ y.start) xs →
    (∀ x ∈ xs.head?, c ≤ x.start) → Contig c (fillGaps c xs n) n
  | [], c, hc, _, _, _ => contig_gap hc
  | x :: xs, c, hc, hle, hchain, hhead => by
    have hx : c ≤ x.start := hhead x (by simp)
    have hxs : x.start ≤ x.stop := Nat.le_add_right _ _
    have hmax : max c x.stop = x.stop := max_eq_right (hx.trans hxs)
    rw [fillGaps, hmax]
    refine (contig_gap hx).append ⟨rfl, ?_⟩
    refine contig_fillGaps (hle x (by simp)) (fun y hy => hle y (by simp [hy])) hchain.tail ?_
    intro y hy
    cases xs with
    | nil => simp at hy
    | cons z zs =>
      have hyz : z = y := by simpa using hy
      rw [← hyz]
      exact (isChain_cons_cons.1 hchain).1

/-! ## Re-layout -/

section Relayout

variable {α : Type} (start len newLen : α → ℕ)

/-- The change of the length of an element. -/
def change (a : α) : ℤ := (newLen a : ℤ) - len a

/-- The total change of the elements that end at or before `off`. -/
def shiftAt (xs : List α) (off : ℕ) : ℤ :=
  ((xs.filter fun a => start a + len a ≤ off).map (change len newLen)).sum

theorem shiftAt_perm {xs ys : List α} (h : xs.Perm ys) (off : ℕ) :
    shiftAt start len newLen xs off = shiftAt start len newLen ys off :=
  ((h.filter _).map _).sum_eq

/-- A run of nonempty elements, each moved by the total change before it, is a run of the new
lengths. The shift `σ` may exceed the change inside the run by a constant. -/
theorem contig_moved {σ : ℕ → ℤ} :
    ∀ {xs : List α} {c n : ℕ} {d : ℤ}, (∀ a ∈ xs, 0 < len a) →
      Contig c (xs.map fun a => ⟨start a, len a⟩) n → 0 ≤ c + d →
      (∀ a ∈ xs, σ (start a) = d + shiftAt start len newLen xs (start a)) →
      (∀ a ∈ xs, 0 ≤ start a + σ (start a)) ∧
        Contig (c + d).toNat (xs.map fun a => ⟨(start a + σ (start a)).toNat, newLen a⟩)
          (n + d + (xs.map (change len newLen)).sum).toNat
  | [], c, n, d, _, h, _, _ => by
    have hcn : c = n := h
    simp [Contig, hcn]
  | a :: as, c, n, d, hpos, h, hd, hσ => by
    obtain ⟨hac, has⟩ := h
    simp only at hac
    have hstop : (⟨start a, len a⟩ : Extent).stop = c + len a := by simp [Extent.stop, hac]
    rw [hstop] at has
    have hapos := hpos a (by simp)
    -- The elements behind `a` end after its start, so the shift of `a` itself is `d`.
    have hlater : ∀ b ∈ as, c + len a ≤ start b := fun b hb =>
      (has.bounds (mem_map.2 ⟨b, hb, rfl⟩)).1
    have hself : σ (start a) = d := by
      rw [hσ a (by simp), shiftAt, filter_eq_nil_iff.2]
      · simp
      intro b hb
      rcases mem_cons.1 hb with rfl | hb
      · simp
        omega
      have := hlater b hb
      simp
      omega
    have hrest : ∀ b ∈ as, σ (start b) =
        (d + change len newLen a) + shiftAt start len newLen as (start b) := by
      intro b hb
      have hle : start a + len a ≤ start b := by have := hlater b hb; omega
      rw [hσ b (by simp [hb]), shiftAt, shiftAt, filter_cons_of_pos (by simpa using hle)]
      simp [add_assoc]
    have hd' : (0 : ℤ) ≤ (c + len a : ℕ) + (d + change len newLen a) := by
      unfold change
      omega
    obtain ⟨ihpos, ih⟩ := contig_moved (fun b hb => hpos b (by simp [hb])) has hd' hrest
    refine ⟨?_, ?_⟩
    · intro b hb
      rcases mem_cons.1 hb with rfl | hb
      · rw [hself, hac]
        exact hd
      · exact ihpos b hb
    refine ⟨by beta_reduce; rw [hself, hac], ?_⟩
    have hnext : (⟨(start a + σ (start a)).toNat, newLen a⟩ : Extent).stop =
        ((c + len a : ℕ) + (d + change len newLen a)).toNat := by
      simp only [Extent.stop, change]
      rw [hself, hac]
      omega
    have hend : (n + d + ((a :: as).map (change len newLen)).sum).toNat =
        (n + (d + change len newLen a) + (as.map (change len newLen)).sum).toNat := by
      rw [map_cons, sum_cons]
      congr 1
      ring
    rw [hnext, hend]
    exact ih

end Relayout

end Univdreams
