import Univdreams.Text

/-!
# Paths as texts

A path is a list of components, its text the components behind a separator each. The pieces of a
text are what stands between the characters that count as separators, without the empty ones, so
that repeated separators and those at an end do not matter. A text and its pieces determine each
other as long as no component is empty or has a separator in it (`pieces_absText`).
-/

namespace Univdreams

open List

namespace PathText

/-- The text of an absolute path with the given components. -/
def absText (cs : List Text) : Text := if cs = [] then ['/'] else cs.flatMap fun c => '/' :: c

/-- What stands between the separators, without empty pieces. -/
def pieces (isSep : Char → Bool) (t : Text) : List Text := (t.splitOnP isSep).filter (· ≠ [])

/-- A list of components: none is empty, and none has a separator in it. -/
def Components (isSep : Char → Bool) (cs : List Text) : Prop :=
  ∀ c ∈ cs, c ≠ [] ∧ ∀ x ∈ c, isSep x = false

variable {isSep : Char → Bool} {cs : List Text}

/-! ## Pieces -/

@[simp] theorem pieces_nil : pieces isSep [] = [] := by
  simp [pieces]

theorem pieces_append_cons {sep : Char} (hsep : isSep sep = true) (s t : Text) :
    pieces isSep (s ++ sep :: t) = pieces isSep s ++ pieces isSep t := by
  unfold pieces
  rw [List.splitOnP_append_cons s t hsep, List.filter_append]

theorem pieces_cons {sep : Char} (hsep : isSep sep = true) (t : Text) :
    pieces isSep (sep :: t) = pieces isSep t := by
  simpa using pieces_append_cons hsep [] t

theorem pieces_of_forall {c : Text} (hc : c ≠ []) (h : ∀ x ∈ c, isSep x = false) :
    pieces isSep c = [c] := by
  unfold pieces
  rw [List.splitOnP_eq_singleton h]
  simp [hc]

/-- No piece of a text has a separator in it. -/
theorem notMem_splitOnP {t p : Text} (hp : p ∈ t.splitOnP isSep) : ∀ x ∈ p, isSep x = false := by
  induction t generalizing p with
  | nil => simp_all
  | cons y ys ih =>
    rw [splitOnP_cons_eq_if_modifyHead] at hp
    split at hp
    next =>
      rcases mem_cons.1 hp with rfl | hp
      · simp
      · exact ih hp
    next hy =>
      obtain ⟨q, qs, hq⟩ := exists_cons_of_ne_nil (splitOnP_ne_nil isSep ys)
      rw [hq, modifyHead_cons, mem_cons] at hp
      rcases hp with rfl | hp
      · intro x hx
        rcases mem_cons.1 hx with rfl | hx
        · simpa using hy
        · exact ih (by simp [hq]) x hx
      · exact ih (by simp [hq, hp])

theorem components_pieces (t : Text) : Components isSep (pieces isSep t) := by
  intro c hc
  obtain ⟨hmem, hne⟩ := mem_filter.1 hc
  exact ⟨by simpa using hne, notMem_splitOnP hmem⟩

theorem components_nil : Components isSep [] := fun _ hc => absurd hc not_mem_nil

theorem Components.of_append_left {ds : List Text} (h : Components isSep (cs ++ ds)) :
    Components isSep cs := fun c hc => h c (mem_append_left _ hc)

theorem Components.of_append_right {ds : List Text} (h : Components isSep (cs ++ ds)) :
    Components isSep ds := fun c hc => h c (mem_append_right _ hc)

/-- The pieces of the text of a path, with something behind it, are its components first. -/
theorem pieces_flatMap_append (hslash : isSep '/' = true) (hcs : Components isSep cs) (t : Text) :
    pieces isSep (cs.flatMap (fun c => '/' :: c) ++ '/' :: t) = cs ++ pieces isSep t := by
  induction cs with
  | nil => simpa using pieces_cons hslash t
  | cons c cs ih =>
    have hc := hcs c mem_cons_self
    have hrest : pieces isSep (cs.flatMap (fun c => '/' :: c) ++ '/' :: t) = cs ++ pieces isSep t :=
      ih fun d hd => hcs d (mem_cons_of_mem _ hd)
    -- Behind the component comes the separator of the next one, or the one in front of `t`.
    obtain ⟨u, hu⟩ : ∃ u, cs.flatMap (fun c => '/' :: c) ++ '/' :: t = '/' :: u := by
      cases cs with
      | nil => exact ⟨t, rfl⟩
      | cons d ds => exact ⟨_, rfl⟩
    rw [flatMap_cons, append_assoc, hu, cons_append, pieces_cons hslash,
      pieces_append_cons hslash, pieces_of_forall hc.1 hc.2, ← pieces_cons hslash u, ← hu, hrest,
      singleton_append, cons_append]

/-- The components of a path are the pieces of its text. -/
theorem pieces_absText (hslash : isSep '/' = true) (hcs : Components isSep cs) :
    pieces isSep (absText cs) = cs := by
  unfold absText
  split
  next h => rw [h, pieces_cons hslash, pieces_nil]
  next h =>
    obtain ⟨ds, d, rfl⟩ := eq_nil_or_concat' cs |>.resolve_left h
    have hd := hcs d (by simp)
    rw [flatMap_append, flatMap_singleton,
      pieces_flatMap_append hslash hcs.of_append_left, pieces_of_forall hd.1 hd.2]

theorem absText_injective (hslash : isSep '/' = true) {ds : List Text} (hcs : Components isSep cs)
    (hds : Components isSep ds) (h : absText cs = absText ds) : cs = ds := by
  rw [← pieces_absText hslash hcs, h, pieces_absText hslash hds]

theorem head?_absText (cs : List Text) : (absText cs).head? = some '/' := by
  unfold absText
  split
  next => rfl
  next h =>
    obtain ⟨c, cs, rfl⟩ := exists_cons_of_ne_nil h
    rfl

/-- The text of a path below another one. -/
theorem absText_append {ds : List Text} (hcs : cs ≠ []) (hds : ds ≠ []) :
    absText (cs ++ ds) = absText cs ++ absText ds := by
  simp [absText, hcs, hds]

/-- To cut at more characters is to cut the pieces. -/
theorem pieces_refine {isSep' : Char → Bool} (hsep : ∀ x, isSep' x = true → isSep x = true)
    (t : Text) : pieces isSep t = (pieces isSep' t).flatMap (pieces isSep) := by
  induction hn : t.length using Nat.strong_induction_on generalizing t with
  | _ n ih =>
    by_cases h : ∃ x ∈ t, isSep' x = true
    · -- Both cut at a character that both know, and what is on its sides is shorter.
      obtain ⟨x, hx, hx'⟩ := h
      obtain ⟨u, v, rfl⟩ := append_of_mem hx
      rw [length_append, length_cons] at hn
      rw [pieces_append_cons hx', pieces_append_cons (hsep x hx'), flatMap_append,
        ih u.length (by omega) u rfl, ih v.length (by omega) v rfl]
    have hnone : ∀ x ∈ t, isSep' x = false := fun x hx => by
      simpa using fun hx' => h ⟨x, hx, hx'⟩
    by_cases ht : t = []
    · simp [ht]
    · rw [pieces_of_forall ht hnone, flatMap_singleton]

/-- The pieces of a text whose components may be cut further. -/
theorem pieces_absText_refine {isSep' : Char → Bool} (hslash : isSep' '/' = true)
    (hsep : ∀ x, isSep' x = true → isSep x = true) (hcs : Components isSep' cs) :
    pieces isSep (absText cs) = cs.flatMap (pieces isSep) := by
  rw [pieces_refine hsep, pieces_absText hslash hcs]

/-! ## Dots -/

/-- A component that names no child: the directory itself, or its parent. -/
def IsDot (c : Text) : Prop := c = ['.'] ∨ c = ['.', '.']

instance (c : Text) : Decidable (IsDot c) := inferInstanceAs (Decidable (_ ∨ _))

/-- One component of a path that is walked: the directory itself, its parent, or a child. -/
def walk (cs : List Text) (c : Text) : List Text :=
  if c = [] ∨ c = ['.'] then cs else if c = ['.', '.'] then cs.dropLast else cs ++ [c]

/-- Where a path ends that is walked from the root. -/
def walked (cs : List Text) : List Text := cs.foldl walk []

theorem walked_append (cs ds : List Text) : walked (cs ++ ds) = ds.foldl walk (walked cs) :=
  foldl_append

/-- What is walked to consists of components of the path that are no dots. -/
theorem mem_foldl_walk {acc : List Text} {c : Text} (h : c ∈ cs.foldl walk acc) :
    c ∈ acc ∨ c ∈ cs ∧ c ≠ [] ∧ ¬ IsDot c := by
  induction cs generalizing acc with
  | nil => exact .inl h
  | cons d ds ih =>
    obtain hacc | ⟨hmem, hdot⟩ := ih h
    · unfold walk at hacc
      split_ifs at hacc with h1 h2
      · exact .inl hacc
      · exact .inl (mem_of_mem_dropLast hacc)
      rcases mem_append.1 hacc with hacc | hc
      · exact .inl hacc
      rw [mem_singleton] at hc
      subst hc
      exact .inr ⟨mem_cons_self, fun h => h1 (.inl h), fun h => h.elim (h1 ∘ .inr) h2⟩
    · exact .inr ⟨mem_cons_of_mem _ hmem, hdot⟩

/-- A path without dots is walked to its end. -/
theorem walked_of_forall (h : ∀ c ∈ cs, c ≠ [] ∧ ¬ IsDot c) : walked cs = cs := by
  suffices ∀ acc, cs.foldl walk acc = acc ++ cs by simpa [walked] using this []
  induction cs with
  | nil => simp
  | cons c cs ih =>
    intro acc
    obtain ⟨hne, hdot⟩ := h c mem_cons_self
    have hwalk : walk acc c = acc ++ [c] := by
      unfold walk
      rw [if_neg fun h => h.elim hne (hdot ∘ .inl), if_neg (hdot ∘ .inr)]
    rw [foldl_cons, hwalk, ih (fun d hd => h d (mem_cons_of_mem _ hd))]
    simp

/-- Empty components do not matter for a walk. -/
theorem foldl_walk_filter (cs acc : List Text) :
    (cs.filter (· ≠ [])).foldl walk acc = cs.foldl walk acc := by
  induction cs generalizing acc with
  | nil => rfl
  | cons c cs ih =>
    by_cases hc : c = []
    · have hwalk : walk acc [] = acc := by simp [walk]
      simpa [hc, hwalk] using ih acc
    · simpa [hc] using ih (walk acc c)

end PathText

end Univdreams
