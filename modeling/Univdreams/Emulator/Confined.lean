import Univdreams.Emulator.ProcFs

/-!
# Paths that stay in their mount

Three functions normalise a path from a system call, with different ideas of a separator.
`canonicalize` resolves the dots between slashes, so that a component such as `a\..` is a name to
it, and `norm_abs` cuts at backslashes as well, so that the dots in it become components. So a
mounted file system can be handed a path with `..`, and also by the target of a link, whose dots
`resolve_symlinks` leaves alone, and by `truncate`, which does not canonicalise.

`Confined` is what routing should guarantee for a path: the path in the mount has no `..`, and the
mount is the one with the longest mount point above the normalised path. The paths that are confined
whatever is mounted are those without dots (`dotFree_iff_confined`). What a call must be given for
its paths to be so is `PathCall.Sound`: the names that its path leads to from its directory have no
dots between backslashes, and neither have the links that are read on the way. The condition is
exact (`exec_confined_iff`), and it carries over to whole runs (`run_confined`).
-/

namespace Univdreams.Emulator

open PathText List Kernel Option

variable {abs : Text} {path : Option Text} {rounds : ℕ}

/-! ## Dots -/

/-- No component of a path is a dot, also when it is cut at backslashes. -/
def DotFree (p : Text) : Prop := ∀ c ∈ pieces isSeparator p, ¬ IsDot c

instance (p : Text) : Decidable (DotFree p) := inferInstanceAs (Decidable (∀ c ∈ _, _))

/-- What separates for `canonicalize` separates for `norm_abs`. -/
theorem isSeparator_of_isSlash (x : Char) (h : isSlash x = true) : isSeparator x = true := by
  simp only [isSlash, decide_eq_true_eq] at h
  simp [isSeparator, h]

/-- What `canonicalize` returns has no dots when no name on it has dots between backslashes. -/
theorem dotFree_canonicalize_iff (base p : Text) :
    DotFree (canonicalize base p) ↔ ∀ w ∈ walked (joined base p), DotFree w := by
  unfold DotFree
  rw [canonicalize_eq, pieces_absText_refine rfl isSeparator_of_isSlash (components_walked base p)]
  simp only [mem_flatMap]
  constructor
  · intro h w hw c hc
    exact h c ⟨w, hw, hc⟩
  · rintro h c ⟨w, hw, hc⟩
    exact h w hw c hc

/-- `norm_abs` leaves the dots of a path as they are. -/
theorem dotFree_normAbs_iff {p : Text} : DotFree (normAbs p) ↔ DotFree p := by
  unfold DotFree
  rw [normAbs_eq, pieces_absText rfl (components_pieces p)]

/-- A text that was cut at its last separator is what was cut. -/
theorem splitAtLast_eq {sep : Char} {p a b : Text} (h : Text.splitAtLast [sep] p = some (a, b)) :
    p = a ++ sep :: b := by
  induction p generalizing a b with
  | nil => simp [Text.splitAtLast] at h
  | cons c cs ih =>
    unfold Text.splitAtLast at h
    cases hrest : Text.splitAtLast [sep] cs with
    | some r =>
      rw [hrest] at h
      cases h
      rw [cons_append, ← ih hrest]
    | none =>
      rw [hrest] at h
      split_ifs at h with hsep
      cases h
      obtain ⟨u, hu⟩ := hsep
      cases hu
      rfl

/-- A link at a path without dots leads to one exactly when its target has none. -/
theorem dotFree_linkTarget_iff {p target : Text} (hp : DotFree p) :
    DotFree (MountTable.linkTarget p target) ↔ DotFree target := by
  unfold MountTable.linkTarget
  split
  · exact dotFree_normAbs_iff
  rw [dotFree_normAbs_iff]
  unfold DotFree
  rw [pieces_append_cons rfl, forall_mem_append]
  refine and_iff_right fun c hc => ?_
  -- The directory of the link is the front of its path.
  cases hsplit : Text.splitAtLast ['/'] p with
  | none =>
    rw [hsplit] at hc
    simp at hc
  | some r =>
    obtain ⟨dir, base⟩ := r
    rw [hsplit] at hc
    refine hp c ?_
    rw [splitAtLast_eq hsplit, pieces_append_cons rfl]
    exact mem_append_left _ hc

/-! ## Routing -/

theorem byteLength_append (s t : Text) : byteLength (s ++ t) = byteLength s + byteLength t := by
  simp [byteLength]

theorem byteLength_pos {t : Text} (ht : t ≠ []) : 0 < byteLength t := by
  obtain ⟨c, cs, rfl⟩ := List.exists_cons_of_ne_nil ht
  have := Char.utf8Size_pos c
  simp only [byteLength, List.map_cons, List.sum_cons]
  omega

/-- Of two paths above a third one, the one with the longer text has more components. -/
theorem length_le_of_byteLength_le {ps qs cs : List Text} (hqs : Components isSeparator qs)
    (hp : ps <+: cs) (hq : qs <+: cs) (h : byteLength (absText qs) ≤ byteLength (absText ps)) :
    qs.length ≤ ps.length := by
  by_contra hlt
  obtain ⟨rs, rfl⟩ : ps <+: qs := prefix_of_prefix_length_le hp hq (by omega)
  obtain ⟨r, rs', rfl⟩ : ∃ r rs', rs = r :: rs' := by
    cases rs with
    | nil => simp at hlt
    | cons r rs' => exact ⟨r, rs', rfl⟩
  have hr : 0 < byteLength r := byteLength_pos (hqs r (by simp)).1
  have hslash : byteLength ['/'] = 1 := by decide
  have hlong : absText (ps ++ r :: rs') =
      ps.flatMap (fun c => '/' :: c) ++ (['/'] ++ (r ++ rs'.flatMap fun c => '/' :: c)) := by
    simp [absText]
  rw [hlong] at h
  simp only [byteLength_append, hslash] at h
  unfold absText at h
  split at h
  · omega
  · omega

namespace MountTable

variable {σ : Type} {t t' : MountTable σ}

/-- The mount that a path is routed to, and the path in it. -/
theorem resolve_eq_some {abs rel : Text} {i : ℕ} (h : t.resolve abs = some (i, rel)) :
    ∃ ps rs, Components isSeparator ps ∧ t.points[i]? = some (absText ps) ∧
      pieces isSeparator abs = ps ++ rs ∧ rel = absText rs ∧
      ∀ qs, Components isSeparator qs → absText qs ∈ t.points →
        qs <+: pieces isSeparator abs → qs.length ≤ ps.length := by
  unfold resolve at h
  dsimp only at h
  obtain ⟨l1, ⟨point, j⟩, l2, hsplit, hfound, hbefore⟩ := List.findSome?_eq_some_iff.1 h
  obtain ⟨rel', hunder, heq⟩ := map_eq_some_iff.1 hfound
  obtain ⟨rfl, rfl⟩ := Prod.mk.inj heq
  have hmem : (point, j) ∈ t.points.zipIdx := by rw [hsplit]; simp
  have hpoint := mk_mem_zipIdx_iff_getElem?.1 hmem
  obtain ⟨ps, hps, rfl⟩ := t.normalised point (mem_of_getElem? hpoint)
  have hcs : Components isSeparator (pieces isSeparator abs) := components_pieces abs
  rw [normAbs_eq] at hunder
  obtain ⟨rs, habs, hrel⟩ := (underMount_absText hps hcs rel').1 hunder
  refine ⟨ps, rs, hps, hpoint, habs, hrel, fun qs hqs hmount hbelow => ?_⟩
  -- The mounts before do not match, and the ones behind have no longer points.
  have hpoints : t.points = l1.map Prod.fst ++ absText ps :: l2.map Prod.fst := by
    have := congrArg (List.map Prod.fst) hsplit
    simpa using this
  have hmatch : underMount (absText qs) (normAbs abs) ≠ none := by
    obtain ⟨us, hus⟩ := hbelow
    rw [normAbs_eq, (underMount_absText hqs hcs (absText us)).2 ⟨us, hus.symm, rfl⟩]
    simp
  have hlong : byteLength (absText qs) ≤ byteLength (absText ps) := by
    have hsorted := t.longestFirst
    change LongestFirst t.points at hsorted
    rw [hpoints] at hmount hsorted
    rcases mem_append.1 hmount with hmount | hmount
    · obtain ⟨⟨q, n⟩, hq, hqs'⟩ := mem_map.1 hmount
      have hnone := hbefore (q, n) hq
      rw [hqs', map_eq_none_iff] at hnone
      exact absurd hnone hmatch
    rcases mem_cons.1 hmount with heq | hmount
    · rw [heq]
    · exact (pairwise_cons.1 (pairwise_append.1 hsorted).2.1).1 _ hmount
  exact length_le_of_byteLength_le hqs ⟨rs, habs.symm⟩ hbelow hlong

/-- A path that is routed to the root lies below no mount point. -/
theorem resolve_eq_none (h : t.resolve abs = none) {qs : List Text}
    (hqs : Components isSeparator qs) (hmount : absText qs ∈ t.points) :
    ¬ qs <+: pieces isSeparator abs := by
  rintro ⟨us, hus⟩
  unfold resolve at h
  rw [List.findSome?_eq_none_iff] at h
  obtain ⟨j, hj⟩ := mem_iff_getElem?.1 hmount
  have hnone := h (absText qs, j) (mk_mem_zipIdx_iff_getElem?.2 hj)
  rw [map_eq_none_iff, normAbs_eq] at hnone
  have hsome := (underMount_absText hqs (components_pieces abs) (absText us)).2 ⟨us, hus.symm, rfl⟩
  rw [hsome] at hnone
  cases hnone

/-- The mount point with these components is the longest one above the path with its dots
resolved. -/
def Longest (t : MountTable σ) (ps : List Text) (abs : Text) : Prop :=
  ps <+: walked (pieces isSeparator abs) ∧
    ∀ qs, Components isSeparator qs → absText qs ∈ t.points →
      qs <+: walked (pieces isSeparator abs) → qs.length ≤ ps.length

/-- Routing does right by a path: the path in the mount has no `..`, the mount has the longest point
above the normalised path, and the root is taken only if there is none. -/
structure Confined (t : MountTable σ) (abs : Text) : Prop where
  rel : ∀ i rel, t.resolve abs = some (i, rel) → ['.', '.'] ∉ pieces isSeparator rel
  mount : ∀ i rel, t.resolve abs = some (i, rel) →
    ∃ ps, Components isSeparator ps ∧ t.points[i]? = some (absText ps) ∧ t.Longest ps abs
  root : t.resolve abs = none → ∀ qs, Components isSeparator qs → absText qs ∈ t.points →
    ¬ qs <+: walked (pieces isSeparator abs)

/-- A path without dots is confined. -/
theorem confined_of_dotFree (h : DotFree abs) : t.Confined abs := by
  have hwalk : walked (pieces isSeparator abs) = pieces isSeparator abs :=
    walked_of_forall fun c hc => ⟨(components_pieces abs c hc).1, h c hc⟩
  constructor
  · intro i rel hres hdots
    obtain ⟨ps, rs, -, -, habs, rfl, -⟩ := resolve_eq_some hres
    have hcs : Components isSeparator (pieces isSeparator abs) := components_pieces abs
    rw [habs] at hcs
    rw [pieces_absText rfl hcs.of_append_right] at hdots
    refine h ['.', '.'] ?_ (.inr rfl)
    rw [habs]
    exact mem_append_right _ hdots
  · intro i rel hres
    obtain ⟨ps, rs, hps, hpoint, habs, -, hlongest⟩ := resolve_eq_some hres
    refine ⟨ps, hps, hpoint, ?_⟩
    unfold Longest
    rw [hwalk]
    exact ⟨⟨rs, habs.symm⟩, hlongest⟩
  · intro hres qs hqs hmount
    rw [hwalk]
    exact resolve_eq_none hres hqs hmount

/-- The paths without dots are those confined whatever is mounted: else mount at the path itself. -/
theorem dotFree_iff_confined [Nonempty σ] (abs : Text) :
    DotFree abs ↔ ∀ u : MountTable σ, u.Confined abs := by
  refine ⟨fun h u => confined_of_dotFree h, fun h c hc hdot => ?_⟩
  obtain ⟨fs⟩ := ‹Nonempty σ›
  have hconfined := h ((withRoot (.withFiles [])).mount abs fs)
  have hpoints : ((withRoot (.withFiles [])).mount abs fs).points = [normAbs abs] := by
    simp [points, mount, mounted, withRoot]
  have hres : ((withRoot (.withFiles [])).mount abs fs).resolve abs = some (0, ['/']) := by
    unfold resolve
    rw [hpoints]
    by_cases hroot : normAbs abs = ['/']
    · simp [underMount, hroot]
    · simp [underMount, hroot]
  obtain ⟨ps, hps, hpoint, habove, -⟩ := hconfined.mount 0 _ hres
  rw [hpoints, List.getElem?_cons_zero, normAbs_eq] at hpoint
  have hsame := absText_injective rfl (components_pieces abs) hps (Option.some.inj hpoint)
  rw [← hsame] at habove
  have hwalked := (mem_foldl_walk (habove.subset hc)).resolve_left not_mem_nil
  exact hwalked.2.2 hdot

end MountTable

/-! ## What is routed -/

namespace MountTable

variable {σ : Type} {lower : Char → Text} {B : Backend σ} {t t' t'' : MountTable σ} {P Q : Prop}

/-- The paths that were routed from `t` to `t'` are without dots exactly under the condition `P`. -/
def Routes (t t' : MountTable σ) (P : Prop) : Prop :=
  ∃ new, t'.routed = new ++ t.routed ∧ ((∀ p ∈ new, DotFree p) ↔ P)

namespace Routes

/-- The condition can be put in other words. -/
theorem congr (h : Routes t t' P) (hiff : P ↔ Q) : Routes t t' Q := by
  rwa [← propext hiff]

/-- Nothing is routed by a change of anything but the list of routed paths. -/
theorem of_eq (hrouted : t'.routed = t.routed) : Routes t t' True :=
  ⟨[], hrouted, iff_of_true (fun _ hp => absurd hp not_mem_nil) trivial⟩

protected theorem refl : Routes t t True := of_eq rfl

/-- One step behind another one asks for what both ask for. -/
protected theorem trans (h : Routes t t' P) (h' : Routes t' t'' Q) : Routes t t'' (P ∧ Q) := by
  obtain ⟨new, hnew, hiff⟩ := h
  obtain ⟨new', hnew', hiff'⟩ := h'
  refine ⟨new' ++ new, by rw [hnew', hnew, append_assoc], ?_⟩
  rw [forall_mem_append, hiff, hiff', and_comm]

/-- A step that routes nothing. -/
theorem silent (h : Routes t t' P) (h' : Routes t' t'' True) : Routes t t'' P :=
  (h.trans h').congr (and_iff_left trivial)

/-- A path that is routed once more. -/
theorem again (h : Routes t t' P) (h' : Routes t' t'' Q) (hPQ : P → Q) : Routes t t'' P :=
  (h.trans h').congr (and_iff_left_of_imp hPQ)

theorem record (abs : Text) : Routes t (t.record abs) (DotFree abs) :=
  ⟨[abs], rfl, forall_mem_singleton⟩

theorem onFs {α : Type} (i : ℕ) (absent : α) (f : σ → α × σ) :
    Routes t (t.onFs i absent f).2 True :=
  of_eq routed_onFs

/-- An operation on a path routes the path. -/
theorem onPath {α : Type} {absent : α} {f : Text → σ → α × σ}
    {onRoot : MountTable σ → α × MountTable σ}
    (hroot : ∀ t : MountTable σ, (onRoot t).2.routed = t.routed) :
    Routes t (t.onPath abs absent f onRoot).2 (DotFree abs) := by
  unfold MountTable.onPath
  split
  · exact (record abs).silent (onFs _ _ _)
  · exact (record abs).silent (of_eq (hroot _))

theorem statPath : Routes t (t.statPath lower B abs).2 (DotFree abs) := onPath fun _ => rfl

theorem readlinkPath : Routes t (t.readlinkPath B abs).2 (DotFree abs) := onPath fun _ => rfl

theorem truncatePath (len : ℕ) : Routes t (t.truncatePath lower B abs len).2 (DotFree abs) :=
  onPath fun _ => rfl

theorem unlinkPath : Routes t (t.unlinkPath lower B abs).2 (DotFree abs) := onPath fun _ => rfl

/-- To list a directory of the root routes nothing more. -/
theorem readdirPath : Routes t (t.readdirPath lower B abs).2 (DotFree abs) := by
  refine onPath fun t => ?_
  split <;> rfl

/-- `open` routes its path once. -/
theorem «open» (access : FileAccess) : Routes t (t.open lower B abs access).2 (DotFree abs) := by
  unfold MountTable.open
  split
  · exact (record abs).silent (of_eq rfl)
  next i rel _ =>
  have hstat := (record (t := t) abs).silent (onFs i none fun fs => B.stat fs rel)
  dsimp only
  split
  · exact hstat.silent (of_eq rfl)
  split
  · exact hstat
  have hcreate := hstat.silent (onFs i (.error .other) fun fs => B.create fs rel 0o644)
  split
  · exact hcreate.silent (of_eq rfl)
  · exact hcreate

/-- The operations of one file system on two paths route both. -/
theorem onTwo {old new : Text} {f : Text → Text → σ → IoResult Unit × σ} :
    Routes t (t.onTwo old new f).2 (DotFree old ∧ DotFree new) := by
  have hrecord := (record (t := t) old).trans (record new)
  unfold MountTable.onTwo
  split
  · split
    · exact hrecord.silent (onFs _ _ _)
    · exact hrecord
  · exact hrecord

/-- Reading from a handle routes no path. -/
theorem readHandle (handle len : ℕ) : Routes t (t.readHandle B handle len).2 True := by
  unfold MountTable.readHandle
  split
  · exact of_eq rfl
  next o _ =>
  split
  · exact .refl
  have hread := onFs (t := t) o.mount (.error .other) fun fs => B.readAt fs o.path o.pos len
  dsimp only
  split
  · exact hread
  · exact hread.silent (of_eq rfl)

/-- Writing to a handle routes no path. -/
theorem writeHandle (handle : ℕ) (data : Bytes) :
    Routes t (t.writeHandle B handle data).2 True := by
  unfold MountTable.writeHandle
  split
  · exact of_eq rfl
  next o _ =>
  split
  · exact .refl
  have hwrite := onFs (t := t) o.mount (.error .other) fun fs => B.writeAt fs o.path o.pos data
  dsimp only
  split
  · exact hwrite
  · exact hwrite.silent (of_eq rfl)

theorem close (handle : ℕ) : Routes t (t.close handle).2 True := by
  unfold MountTable.close
  split
  · exact of_eq rfl
  · exact of_eq rfl

/-- The loop of `read_file` routes nothing, since it reads from a handle. -/
theorem readLoop (handle n : ℕ) (out : Bytes) {bytes : Bytes}
    (hread : readLoop B handle n out t = some (bytes, t')) : Routes t t' True := by
  induction n generalizing t out with
  | zero => cases hread
  | succ n ih =>
    unfold MountTable.readLoop at hread
    have hstep : Routes t (t.readHandle B handle 0x10000).2 True := readHandle handle 0x10000
    dsimp only at hread
    split at hread
    · cases hread
      exact hstep
    · cases hread
      exact hstep
    · exact hstep.silent (ih _ hread)

end Routes

/-! ## Links -/

section Links

variable (lower) (B)

/-- The target of the link at a path, if one can be read, as `resolve_symlinks` asks for it. -/
def linkAt (p : Text) (t : MountTable σ) : Option Text × MountTable σ :=
  let (attrs, t) := t.statPath lower B p
  if attrs.map Attrs.kind = some .symlink then
    let (target, t) := t.readlinkPath B p
    (target.toOption, t)
  else (none, t)

/-- The targets of at most `n` links read from a path on have no dots. What the last one leads to
matters only if `asked` for. -/
def LinksDotFree (asked : Prop) : ℕ → Text → MountTable σ → Prop
  | 0, _, _ => True
  | n + 1, p, t => match linkAt lower B p t with
    | (some target, t) =>
      (asked ∨ n ≠ 0 → DotFree target) ∧ LinksDotFree asked n (linkTarget p target) t
    | (none, _) => True

instance decidableLinksDotFree (asked : Prop) [Decidable asked] :
    ∀ n p (t : MountTable σ), Decidable (LinksDotFree lower B asked n p t)
  | 0, _, _ => isTrue trivial
  | n + 1, p, t => match h : linkAt lower B p t with
    | (some target, t') =>
      have := decidableLinksDotFree asked n (linkTarget p target) t'
      decidable_of_iff ((asked ∨ n ≠ 0 → DotFree target) ∧
        LinksDotFree lower B asked n (linkTarget p target) t') (by rw [LinksDotFree, h])
    | (none, _) => isTrue (by rw [LinksDotFree, h]; trivial)

end Links

/-- A round of `resolve_symlinks`. -/
theorem followLinks_succ (n : ℕ) (p : Text) (t : MountTable σ) :
    followLinks lower B (n + 1) p t = match linkAt lower B p t with
      | (some target, t) => followLinks lower B n (linkTarget p target) t
      | (none, t) => (p, t) := by
  rw [followLinks, linkAt]
  dsimp only
  split
  · cases ((t.statPath lower B p).2.readlinkPath B p).1 <;> rfl
  · rfl

/-- To look for a link routes its path. -/
theorem routes_linkAt (p : Text) : Routes t (linkAt lower B p t).2 (DotFree p) := by
  unfold linkAt
  dsimp only
  split
  · exact Routes.statPath.again Routes.readlinkPath id
  · exact Routes.statPath

/-- Following links routes the path and what the links lead to, up to the last one, which is left to
the caller. -/
theorem routes_followLinks (asked : Prop) (n : ℕ) (p : Text) (t : MountTable σ) :
    ∃ P, Routes t (followLinks lower B n p t).2 P ∧
      (P ∧ (asked → DotFree (followLinks lower B n p t).1) ↔
        (asked ∨ n ≠ 0 → DotFree p) ∧ LinksDotFree lower B asked n p t) := by
  induction n generalizing p t with
  | zero => exact ⟨True, .refl, by simp [followLinks, LinksDotFree]⟩
  | succ n ih =>
    have hlink : Routes t (linkAt lower B p t).2 (DotFree p) := routes_linkAt p
    rw [followLinks_succ, LinksDotFree]
    generalize linkAt lower B p t = r at hlink ⊢
    obtain ⟨target, t1⟩ := r
    cases target with
    | none =>
      refine ⟨DotFree p, hlink, ?_⟩
      simp only [ne_eq, Nat.add_eq_zero_iff, one_ne_zero, and_false, not_false_eq_true, or_true,
        forall_const, and_true, and_iff_left_iff_imp]
      exact fun hp _ => hp
    | some target =>
      obtain ⟨P, hrest, hiff⟩ := ih (linkTarget p target) t1
      refine ⟨DotFree p ∧ P, hlink.trans hrest, ?_⟩
      simp only [ne_eq, Nat.add_eq_zero_iff, one_ne_zero, and_false, not_false_eq_true, or_true,
        forall_const]
      rw [and_assoc]
      refine and_congr_right fun hp => ?_
      rw [hiff, dotFree_linkTarget_iff hp]

/-- What `resolve_symlinks` and a lookup of its result route. -/
theorem routes_resolveSymlinks (asked : Prop) (p : Text) (t : MountTable σ) :
    ∃ P, Routes t (t.resolveSymlinks lower B p).2 P ∧
      (P ∧ (asked → DotFree (t.resolveSymlinks lower B p).1) ↔
        DotFree p ∧ LinksDotFree lower B asked 16 (normAbs p) t) := by
  obtain ⟨P, hroutes, hiff⟩ : ∃ P, Routes t (followLinks lower B 16 (normAbs p) t).2 P ∧ _ :=
    routes_followLinks asked 16 (normAbs p) t
  refine ⟨P, hroutes, hiff.trans (and_congr_left fun _ => ?_)⟩
  rw [dotFree_normAbs_iff]
  simp

/-- `read_file` routes its path and what the links on it lead to. -/
theorem routes_readFile {data : Option Bytes}
    (hread : t.readFile lower B rounds abs = some (data, t')) :
    Routes t t' (DotFree abs ∧ LinksDotFree lower B True 16 (normAbs abs) t) := by
  obtain ⟨P, hfollow, hiff⟩ : ∃ P, Routes t (t.resolveSymlinks lower B abs).2 P ∧ _ :=
    routes_resolveSymlinks True abs t
  unfold readFile at hread
  generalize t.resolveSymlinks lower B abs = r at hfollow hiff hread
  obtain ⟨p, t0⟩ := r
  rw [true_imp_iff] at hiff
  dsimp only at hfollow hiff hread
  have hopen : Routes t (t0.open lower B p .read).2 _ :=
    (hfollow.trans (Routes.open .read)).congr hiff
  split at hread
  · cases hread
    exact hopen
  obtain ⟨⟨out, t1⟩, hloop, hrest⟩ := bind_eq_some_iff.1 hread
  cases hrest
  exact (hopen.silent (Routes.readLoop _ _ _ hloop)).silent (Routes.close _)

end MountTable

/-! ## Calls -/

/-- The system calls on paths and their descriptors, with the texts that `read_cstr` returns. The
rounds of `renameat` and `linkat` bound the loop that reads a file. -/
inductive PathCall where
  | openat (dirfd : ℤ) (path : Option Text) (flags : ℕ)
  | stat (dirfd : ℤ) (path : Option Text) (nofollow : Bool)
  | fstat (fd : ℤ)
  | faccessat (dirfd : ℤ) (path : Option Text)
  | mkdirat (dirfd : ℤ) (path : Option Text)
  | unlinkat (dirfd : ℤ) (path : Option Text) (isRmdir : Bool)
  | symlinkat (target : Option Text) (dirfd : ℤ) (linkpath : Option Text)
  | readlinkat (dirfd : ℤ) (path : Option Text)
  | renameat (rounds : ℕ) (olddirfd : ℤ) (oldp : Option Text) (newdirfd : ℤ) (newp : Option Text)
  | linkat (rounds : ℕ) (olddirfd : ℤ) (oldp : Option Text) (newdirfd : ℤ) (newp : Option Text)
  | truncate (path : Option Text) (len : ℕ)
  | ftruncate (fd : ℤ) (len : ℕ)
  | fallocate (fd : ℤ) (offset len : ℕ)
  | getdents64 (fd : ℤ) (count : ℕ) (writable : ℕ → Bool)
  | chdir (path : Option Text)
  | fchdir (fd : ℤ)
  | close (fd : ℤ)
  | dup (oldfd : ℤ)
  | dup2 (oldfd newfd : ℤ)
  | fcntl (fd : ℤ) (cmd : ℕ)

namespace PathCall

section Exec

variable {σ : Type} (lower : Char → Text) (B : Backend σ)

/-- What a call leaves behind. There is nothing when the rounds of reading are not enough. -/
def exec (c : PathCall) (s : Kernel × MountTable σ) : Option (Kernel × MountTable σ) :=
  let (k, t) := s
  match c with
  | .openat dirfd path flags => some (k.sysOpenat lower B dirfd path flags t).2
  | .stat dirfd path nofollow => some (k, (k.sysStat lower B dirfd path nofollow t).2)
  | .fstat fd => some (k, (k.sysFstat lower B fd t).2)
  | .faccessat dirfd path => some (k, (k.sysFaccessat lower B dirfd path t).2)
  | .mkdirat dirfd path => some (k, (k.sysMkdirat B dirfd path t).2)
  | .unlinkat dirfd path isRmdir => some (k, (k.sysUnlinkat lower B dirfd path isRmdir t).2)
  | .symlinkat target dirfd linkpath => some (k, (k.sysSymlinkat B target dirfd linkpath t).2)
  | .readlinkat dirfd path => some (k, (k.sysReadlinkat B dirfd path t).2)
  | .renameat rounds olddirfd oldp newdirfd newp =>
    (k.sysRenameat lower B rounds olddirfd oldp newdirfd newp t).map fun r => (k, r.2)
  | .linkat rounds olddirfd oldp newdirfd newp =>
    (k.sysLinkat lower B rounds olddirfd oldp newdirfd newp t).map fun r => (k, r.2)
  | .truncate path len => some (k, (Kernel.sysTruncate lower B path len t).2)
  | .ftruncate fd len => some (k, (k.sysFtruncate lower B fd len t).2)
  | .fallocate fd offset len => some (k, (k.sysFallocate lower B fd offset len t).2)
  | .getdents64 fd count writable => some (k.sysGetdents64 lower B fd count writable t).2
  | .chdir path => some (k.sysChdir lower B path t).2
  | .fchdir fd => some ((k.sysFchdir fd).2, t)
  | .close fd => some (k.sysClose fd t).2
  | .dup oldfd => some ((k.sysDup oldfd).2, t)
  | .dup2 oldfd newfd => some (k.sysDup2 oldfd newfd t).2
  | .fcntl fd cmd => some ((k.sysFcntl fd cmd).2, t)

/-- A sequence of calls. -/
def run (calls : List PathCall) (s : Kernel × MountTable σ) : Option (Kernel × MountTable σ) :=
  calls.foldlM (fun s c => c.exec lower B s) s

end Exec

end PathCall

/-! ## What a call must be given -/

namespace Kernel

/-- The names that a path leads to, from its directory if it is relative, have no dots between
backslashes. -/
def DotFreeAt (k : Kernel) (dirfd : ℤ) (path : Option Text) : Prop :=
  ∀ p base, path = some p → (p.head? ≠ some '/' → k.baseDir dirfd = some base) →
    ∀ w ∈ walked (joined base p), DotFree w

variable {k : Kernel}

/-- What `resolve_at` returns then has no dots. -/
theorem dotFreeAt_iff {dirfd : ℤ} :
    k.DotFreeAt dirfd path ↔ ∀ p, k.resolveAt dirfd path = some p → DotFree p := by
  constructor
  · intro h p hp
    unfold resolveAt at hp
    obtain ⟨q, rfl, hq⟩ := bind_eq_some_iff.1 hp
    split at hq
    next hslash =>
      cases hq
      exact (dotFree_canonicalize_iff _ _).2 (h q ['/'] rfl fun hne => absurd hslash hne)
    next =>
      obtain ⟨base, hbase, hq⟩ := bind_eq_some_iff.1 hq
      cases hq
      exact (dotFree_canonicalize_iff _ _).2 (h q base rfl fun _ => hbase)
  · rintro h q base rfl hbase
    refine (dotFree_canonicalize_iff base q).1 ?_
    by_cases hslash : q.head? = some '/'
    · -- The base of an absolute path does not matter.
      have hsame : canonicalize base q = canonicalize ['/'] q := by simp [canonicalize, hslash]
      rw [hsame]
      exact h _ (by simp [resolveAt, hslash])
    · exact h _ (by simp [resolveAt, hslash, hbase hslash])

end Kernel

namespace PathCall

section Sound

variable {σ : Type} (lower : Char → Text) (B : Backend σ)

open MountTable in
/-- What a call needs for its paths to be routed without dots: a resolved path has none between
backslashes where it leads to, a path taken as it is has none at all, and neither have the links
that are read. -/
def Sound (k : Kernel) (t : MountTable σ) : PathCall → Prop
  | .openat dirfd path flags =>
    -- The path is asked for by `stat_path`, unless a directory is wanted, and to follow links.
    if hasFlag flags oNOFOLLOW then ¬ hasFlag flags oDIRECTORY → k.DotFreeAt dirfd path
    else k.DotFreeAt dirfd path ∧ ∀ p, k.resolveAt dirfd path = some p →
      LinksDotFree lower B (¬ hasFlag flags oDIRECTORY) 16 (normAbs p) t
  | .stat dirfd path nofollow => k.DotFreeAt dirfd path ∧
      (nofollow = false → ∀ p, k.resolveAt dirfd path = some p →
        LinksDotFree lower B True 16 (normAbs p) t)
  | .fstat fd => (∀ h path, k.fds.lookup fd = some (.vfs h path) → DotFree path) ∧
      ∀ path pos, k.fds.lookup fd = some (.dir path pos) → DotFree path
  | .faccessat dirfd path | .mkdirat dirfd path | .unlinkat dirfd path _ | .readlinkat dirfd path =>
    k.DotFreeAt dirfd path
  | .chdir path => k.DotFreeAt atFdcwd path
  | .symlinkat target dirfd linkpath => target.isSome → k.DotFreeAt dirfd linkpath
  | .renameat _ olddirfd oldp newdirfd newp =>
    ∀ old new, k.resolveAt olddirfd oldp = some old → k.resolveAt newdirfd newp = some new →
      old ≠ new → k.DotFreeAt olddirfd oldp ∧ k.DotFreeAt newdirfd newp ∧
        ((t.renamePath B old new).1 ≠ .ok () →
          LinksDotFree lower B True 16 (normAbs old) (t.renamePath B old new).2)
  | .linkat _ olddirfd oldp newdirfd newp =>
    ∀ old new, k.resolveAt olddirfd oldp = some old → k.resolveAt newdirfd newp = some new →
      k.DotFreeAt olddirfd oldp ∧ k.DotFreeAt newdirfd newp ∧
        ((t.hardlinkPath B old new).1 ≠ .ok () →
          LinksDotFree lower B True 16 (normAbs old) (t.hardlinkPath B old new).2)
  | .truncate path _ => ∀ p, path = some p → DotFree p
  | .ftruncate fd _ | .fallocate fd _ _ =>
    ∀ h path, k.fds.lookup fd = some (.vfs h path) → DotFree path
  | .getdents64 fd _ _ => ∀ path pos, k.fds.lookup fd = some (.dir path pos) → DotFree path
  | .fchdir _ | .close _ | .dup _ | .dup2 _ _ | .fcntl _ _ => True

/-- Every call of a run is sound in the state that it is made in. -/
def RunSound : List PathCall → Kernel × MountTable σ → Prop
  | [], _ => True
  | c :: calls, s =>
    c.Sound lower B s.1 s.2 ∧ ∀ s', c.exec lower B s = some s' → RunSound calls s'

end Sound

end PathCall

namespace Kernel

section Calls

open MountTable

variable {σ : Type} {lower : Char → Text} {B : Backend σ} {k : Kernel} {t t' : MountTable σ}

/-- The part of `openat` behind the links asks for the path unless a directory is wanted. -/
theorem routes_opened (p : Text) (flags : ℕ) (t : MountTable σ) :
    Routes t (if (opensDir lower B p flags t).1 then (opensDir lower B p flags t).2
        else (openFile lower B k p flags (opensDir lower B p flags t).2).2.2)
      (¬ hasFlag flags oDIRECTORY → DotFree p) := by
  unfold opensDir
  split
  next hdir =>
    rw [if_pos rfl]
    exact Routes.refl.congr (by simp [hdir])
  next hdir =>
    refine Routes.congr (P := DotFree p) ?_ (by simp [hdir])
    dsimp only
    split
    · exact Routes.statPath
    have hcreate : Routes t (if hasFlag flags oCREAT
        then (t.statPath lower B p).2.writePath lower p [] else (t.statPath lower B p).2)
        (DotFree p) := by
      split
      · exact Routes.statPath.silent (.of_eq rfl)
      · exact Routes.statPath
    rw [openFile_table]
    exact hcreate.again (Routes.open (accessOf flags)) id

/-- `openat` routes the path and what the links on it lead to. -/
theorem routes_openat (dirfd : ℤ) (path : Option Text) (flags : ℕ) :
    Routes t (k.sysOpenat lower B dirfd path flags t).2.2
      (PathCall.Sound lower B k t (.openat dirfd path flags)) := by
  simp only [PathCall.Sound, dotFreeAt_iff]
  cases hres : k.resolveAt dirfd path with
  | none =>
    unfold sysOpenat
    rw [hres]
    exact Routes.refl.congr (by simp)
  | some p =>
    have htable : (k.sysOpenat lower B dirfd path flags t).2.2 =
        let q := openPath lower B p flags t
        if (opensDir lower B q.1 flags q.2).1 then (opensDir lower B q.1 flags q.2).2
        else (openFile lower B k q.1 flags (opensDir lower B q.1 flags q.2).2).2.2 := by
      unfold sysOpenat
      rw [hres]
      dsimp only
      split <;> rfl
    rw [htable]
    simp only [Option.some.injEq, forall_eq']
    unfold openPath
    split
    · exact routes_opened p flags t
    · obtain ⟨P, hfollow, hiff⟩ : ∃ P, Routes t (t.resolveSymlinks lower B p).2 P ∧ _ :=
        routes_resolveSymlinks (¬ hasFlag flags oDIRECTORY) p t
      exact (hfollow.trans (routes_opened _ flags _)).congr hiff

/-- The copy of `renameat` and `linkat` routes the links on the old path. -/
theorem routes_copyFile {old new : Text} {status : ℤ}
    (h : copyFile lower B rounds old new t = some (status, t')) :
    ∃ P, Routes t t' P ∧ (DotFree old → DotFree new →
      (P ↔ LinksDotFree lower B True 16 (normAbs old) t)) := by
  unfold copyFile at h
  obtain ⟨⟨data, t1⟩, hread, h⟩ := bind_eq_some_iff.1 h
  have hroute := routes_readFile hread
  dsimp only at h
  split at h
  · cases h
    exact ⟨_, hroute, fun hold _ => and_iff_right hold⟩
  next bytes =>
  have htrunc : Routes t (t1.truncatePath lower B new 0).2 _ :=
    hroute.trans (Routes.truncatePath 0)
  generalize (t1.truncatePath lower B new 0).2 = t2 at htrunc h
  have hopen : Routes t (t2.open lower B new .write).2 _ :=
    htrunc.again (Routes.open _) And.right
  have hall : DotFree old → DotFree new →
      ((DotFree old ∧ LinksDotFree lower B True 16 (normAbs old) t) ∧ DotFree new ↔
        LinksDotFree lower B True 16 (normAbs old) t) :=
    fun hold hnew => by simp [hold, hnew]
  split at h
  · cases h
    exact ⟨_, hopen, hall⟩
  next hd _ =>
  cases h
  exact ⟨_, (hopen.silent (Routes.writeHandle hd bytes)).silent (Routes.close hd), hall⟩

/-- `renameat` routes both paths unless their texts are equal, and copies if the mount does not
rename. -/
theorem routes_renameat {olddirfd newdirfd : ℤ} {oldp newp : Option Text} {status : ℤ}
    (h : k.sysRenameat lower B rounds olddirfd oldp newdirfd newp t = some (status, t')) :
    Routes t t' (PathCall.Sound lower B k t (.renameat rounds olddirfd oldp newdirfd newp)) := by
  simp only [PathCall.Sound, dotFreeAt_iff]
  unfold sysRenameat at h
  split at h
  · next old new hold hnew =>
    simp only [hold, hnew, Option.some.injEq, forall_eq', forall_apply_eq_imp_iff]
    split at h
    next heq =>
      cases h
      exact Routes.refl.congr (by simp [heq])
    next hne =>
      have hrename : Routes t (t.renamePath B old new).2 (DotFree old ∧ DotFree new) := Routes.onTwo
      refine Routes.congr (P := (DotFree old ∧ DotFree new) ∧ ((t.renamePath B old new).1 ≠ .ok () →
        LinksDotFree lower B True 16 (normAbs old) (t.renamePath B old new).2)) ?_
        (by simp [hne, and_assoc])
      generalize t.renamePath B old new = r at hrename h ⊢
      obtain ⟨res, t1⟩ := r
      cases res with
      | ok u =>
        cases h
        exact hrename.congr (by simp)
      | error e =>
        simp only [ne_eq, reduceCtorEq, not_false_eq_true, forall_const]
        obtain ⟨⟨status', t2⟩, hcopy, h⟩ := bind_eq_some_iff.1 h
        obtain ⟨P, hroute, hiff⟩ := routes_copyFile hcopy
        have hall := (hrename.trans hroute).congr
          (and_congr_right fun hfree => hiff hfree.1 hfree.2)
        dsimp only at h
        split at h
        · cases h
          exact hall.again Routes.unlinkPath fun hfree => hfree.1.1
        · cases h
          exact hall
  · next hbad =>
    cases h
    refine Routes.refl.congr (iff_of_true trivial ?_)
    intro old new hold hnew
    exact absurd hnew (hbad old new hold)

/-- `linkat` routes both paths, and copies if the mount does not link. -/
theorem routes_linkat {olddirfd newdirfd : ℤ} {oldp newp : Option Text} {status : ℤ}
    (h : k.sysLinkat lower B rounds olddirfd oldp newdirfd newp t = some (status, t')) :
    Routes t t' (PathCall.Sound lower B k t (.linkat rounds olddirfd oldp newdirfd newp)) := by
  simp only [PathCall.Sound, dotFreeAt_iff]
  unfold sysLinkat at h
  split at h
  · next old new hold hnew =>
    simp only [hold, hnew, Option.some.injEq, forall_eq', forall_apply_eq_imp_iff]
    have hlink : Routes t (t.hardlinkPath B old new).2 (DotFree old ∧ DotFree new) := Routes.onTwo
    refine Routes.congr (P := (DotFree old ∧ DotFree new) ∧ ((t.hardlinkPath B old new).1 ≠ .ok () →
      LinksDotFree lower B True 16 (normAbs old) (t.hardlinkPath B old new).2)) ?_
      (by simp [and_assoc])
    generalize t.hardlinkPath B old new = r at hlink h ⊢
    obtain ⟨res, t1⟩ := r
    cases res with
    | ok u =>
      cases h
      exact hlink.congr (by simp)
    | error e =>
      simp only [ne_eq, reduceCtorEq, not_false_eq_true, forall_const]
      obtain ⟨P, hroute, hiff⟩ := routes_copyFile h
      exact (hlink.trans hroute).congr (and_congr_right fun hfree => hiff hfree.1 hfree.2)
  · next hbad =>
    cases h
    refine Routes.refl.congr (iff_of_true trivial ?_)
    intro old new hold hnew
    exact absurd hnew (hbad old new hold)

/-- `getdents64` routes the path of the directory. -/
theorem routes_getdents64 (fd : ℤ) (count : ℕ) (writable : ℕ → Bool) :
    Routes t (k.sysGetdents64 lower B fd count writable t).2.2
      (PathCall.Sound lower B k t (.getdents64 fd count writable)) := by
  simp only [PathCall.Sound]
  unfold sysGetdents64
  split
  · next path start hfd =>
    simp only [hfd, Option.some.injEq, Fd.dir.injEq, and_imp, forall_apply_eq_imp_iff, forall_eq']
    have hread : Routes t (t.readdirPath lower B path).2 (DotFree path) := Routes.readdirPath
    repeat' split
    all_goals exact hread
  · next hfd =>
    exact Routes.refl.congr (iff_of_true trivial fun path pos h => absurd h (hfd path pos))

/-- `chdir` routes the path. -/
theorem routes_chdir (path : Option Text) :
    Routes t (k.sysChdir lower B path t).2.2 (PathCall.Sound lower B k t (.chdir path)) := by
  simp only [PathCall.Sound, dotFreeAt_iff]
  unfold sysChdir
  split
  · next hres => exact Routes.refl.congr (by simp [hres])
  · next p hres =>
    simp only [hres, Option.some.injEq, forall_eq']
    have hstat : Routes t (t.statPath lower B p).2 (DotFree p) := Routes.statPath
    split
    all_goals exact hstat

/-- `close` routes nothing. -/
theorem routes_close (fd : ℤ) : Routes t (k.sysClose fd t).2.2 True := by
  unfold sysClose
  split
  · exact Routes.close _
  all_goals exact .refl

/-- `dup2` routes nothing. -/
theorem routes_dup2 (oldfd newfd : ℤ) : Routes t (k.sysDup2 oldfd newfd t).2.2 True := by
  unfold sysDup2
  split
  · exact .refl
  split
  · exact .refl
  unfold dropFd
  dsimp only
  split
  · exact Routes.close _
  all_goals exact .refl

end Calls

end Kernel

namespace PathCall

open MountTable

variable {σ : Type} {lower : Char → Text} {B : Backend σ} {k k' : Kernel} {t t' : MountTable σ}

/-- A call with one path that is resolved routes what is done with it, and nothing if it is bad. -/
theorem routes_resolved {α : Type} {dirfd : ℤ} {bad : α} {f : Text → α × MountTable σ}
    {P : Text → Prop} (hf : ∀ p, Routes t (f p).2 (P p)) :
    Routes t (match k.resolveAt dirfd path with | none => (bad, t) | some p => f p).2
      (∀ p, k.resolveAt dirfd path = some p → P p) := by
  cases k.resolveAt dirfd path with
  | none => exact Routes.refl.congr (by simp)
  | some p => exact (hf p).congr (by simp)

/-- The paths that a call routes are without dots exactly when it is sound. -/
theorem exec_routes {c : PathCall} (h : c.exec lower B (k, t) = some (k', t')) :
    Routes t t' (c.Sound lower B k t) := by
  have hstate : ∀ {s : Kernel × MountTable σ} {P : Prop}, some s = some (k', t') →
      Routes t s.2 P → Routes t t' P := fun hs => Option.some.inj hs ▸ id
  cases c with
  | openat dirfd path flags => exact hstate h (routes_openat dirfd path flags)
  | stat dirfd path nofollow =>
    refine hstate h ((routes_resolved (P := fun p => DotFree p ∧ (nofollow = false →
      LinksDotFree lower B True 16 (normAbs p) t)) fun p => ?_).congr ?_)
    · cases nofollow with
      | true => exact Routes.statPath.congr (by simp)
      | false =>
        obtain ⟨P, hfollow, hiff⟩ : ∃ P, Routes t (t.resolveSymlinks lower B p).2 P ∧ _ :=
          routes_resolveSymlinks True p t
        rw [true_imp_iff] at hiff
        exact (hfollow.trans Routes.statPath).congr (by simpa using hiff)
    · simp only [Sound, dotFreeAt_iff]
      exact ⟨fun hall => ⟨fun p hp => (hall p hp).1, fun hno p hp => (hall p hp).2 hno⟩,
        fun hall p hp => ⟨hall.1 p hp, fun hno => hall.2 hno p hp⟩⟩
  | fstat fd =>
    refine hstate h ?_
    simp only [Sound]
    unfold sysFstat
    split
    · next hfd => exact Routes.refl.congr (by simp [hfd])
    · next h' path hfd => exact Routes.statPath.congr (by simp [hfd])
    · next path pos hfd => exact Routes.statPath.congr (by simp [hfd])
    · next v hvfs hdir hfd => exact Routes.refl.congr (by simp_all)
  | faccessat dirfd path =>
    refine hstate h ((routes_resolved fun p => ?_).congr dotFreeAt_iff.symm)
    exact Routes.statPath
  | mkdirat dirfd path =>
    refine hstate h ((routes_resolved fun p => ?_).congr dotFreeAt_iff.symm)
    exact Routes.onPath fun _ => rfl
  | unlinkat dirfd path isRmdir =>
    refine hstate h ((routes_resolved fun p => ?_).congr dotFreeAt_iff.symm)
    cases isRmdir with
    | true => exact Routes.onPath fun _ => rfl
    | false => exact Routes.unlinkPath
  | symlinkat target dirfd linkpath =>
    refine hstate h ?_
    simp only [Sound, dotFreeAt_iff]
    unfold sysSymlinkat
    split
    · next target l hres =>
      simp only [hres, Option.isSome_some, forall_const, Option.some.injEq, forall_eq']
      exact Routes.onPath fun _ => rfl
    · next hbad =>
      refine Routes.refl.congr (iff_of_true trivial fun htarget l hres => ?_)
      obtain ⟨target, rfl⟩ := isSome_iff_exists.1 htarget
      exact absurd hres (hbad target l rfl)
  | readlinkat dirfd path =>
    refine hstate h ((routes_resolved fun p => ?_).congr dotFreeAt_iff.symm)
    exact Routes.readlinkPath
  | renameat rounds olddirfd oldp newdirfd newp =>
    obtain ⟨⟨status, t1⟩, hcall, heq⟩ := map_eq_some_iff.1 h
    cases heq
    exact routes_renameat hcall
  | linkat rounds olddirfd oldp newdirfd newp =>
    obtain ⟨⟨status, t1⟩, hcall, heq⟩ := map_eq_some_iff.1 h
    cases heq
    exact routes_linkat hcall
  | truncate path len =>
    refine hstate h ?_
    unfold sysTruncate
    cases path with
    | none => exact Routes.refl.congr (by simp [Sound])
    | some p => exact (Routes.truncatePath len).congr (by simp [Sound])
  | ftruncate fd len =>
    refine hstate h ?_
    simp only [Sound]
    unfold sysFtruncate
    split
    · next h' path hfd => exact (Routes.truncatePath len).congr (by simp [hfd])
    · next path pos hfd => exact Routes.refl.congr (by simp [hfd])
    · next hvfs hdir => exact Routes.refl.congr (by simp_all)
  | fallocate fd offset len =>
    refine hstate h ?_
    simp only [Sound]
    unfold sysFallocate
    split
    · next h' path hfd =>
      have hstat : Routes t (t.statPath lower B path).2 (DotFree path) := Routes.statPath
      refine Routes.congr (P := DotFree path) ?_ (by simp [hfd])
      dsimp only
      split
      · exact hstat.again (Routes.truncatePath _) id
      · exact hstat
    · next path pos hfd => exact Routes.refl.congr (by simp [hfd])
    · next hvfs hdir => exact Routes.refl.congr (by simp_all)
  | getdents64 fd count writable => exact hstate h (routes_getdents64 fd count writable)
  | chdir path => exact hstate h (routes_chdir path)
  | fchdir fd => exact hstate h .refl
  | close fd => exact hstate h (routes_close fd)
  | dup oldfd => exact hstate h .refl
  | dup2 oldfd newfd => exact hstate h (routes_dup2 oldfd newfd)
  | fcntl fd cmd => exact hstate h .refl

/-- The paths that a call routes are confined, whatever is mounted where, exactly when the call is
sound in the state that it is made in. -/
theorem exec_confined_iff [Nonempty σ] {c : PathCall} (h : c.exec lower B (k, t) = some (k', t')) :
    ∃ new, t'.routed = new ++ t.routed ∧
      ((∀ abs ∈ new, ∀ u : MountTable σ, u.Confined abs) ↔ c.Sound lower B k t) := by
  obtain ⟨new, hnew, hiff⟩ := exec_routes h
  refine ⟨new, hnew, ?_⟩
  simp only [← dotFree_iff_confined]
  exact hiff

/-- `/proc/v` by a way through its parent, where `v` is a link to `version`. That another link of
`/proc` leads out of it does not matter. -/
theorem exec_confined_iff_linked :
    ∃ k' t', (openat atFdcwd (some "/proc/../proc/v".toList) 0).exec asciiLower ProcFs.backend
        (fresh, ProcFs.linked) = some (k', t') ∧
      ∃ new, t'.routed = new ++ ProcFs.linked.routed ∧
        ∀ abs ∈ new, ∀ u : MountTable ProcFs.State, u.Confined abs := by
  have hsome : ((openat atFdcwd (some "/proc/../proc/v".toList) 0).exec asciiLower ProcFs.backend
      (fresh, ProcFs.linked)).isSome := rfl
  obtain ⟨⟨k', t'⟩, hexec⟩ := isSome_iff_exists.1 hsome
  obtain ⟨new, hnew, hiff⟩ := exec_confined_iff hexec
  refine ⟨k', t', hexec, new, hnew, hiff.2 ⟨?_, ?_⟩⟩
  · rintro p base ⟨⟩ -
    have hwalked : walked (joined base "/proc/../proc/v".toList) =
      ["proc".toList, "v".toList] := rfl
    rw [hwalked]
    decide
  · intro p hp
    have hpath : fresh.resolveAt atFdcwd (some "/proc/../proc/v".toList) =
        some "/proc/v".toList := by decide
    rw [hpath] at hp
    cases hp
    decide +kernel

/-- A backslash makes a way out of `/proc` of a name in it. -/
theorem not_confined_backslash :
    ∃ k' t', (openat atFdcwd (some "/proc/a\\..\\..\\x".toList) 0).exec asciiLower ProcFs.backend
        (fresh, ProcFs.linked) = some (k', t') ∧
      ¬ ∃ new, t'.routed = new ++ ProcFs.linked.routed ∧ ∀ abs ∈ new, t'.Confined abs := by
  have hrun : ((openat atFdcwd (some "/proc/a\\..\\..\\x".toList) 0).exec asciiLower ProcFs.backend
      (fresh, ProcFs.linked)).map (fun s => s.2.routed.any fun abs =>
        (s.2.resolve abs).any fun r => r.2.splitOnP isSeparator |>.contains ['.', '.']) =
      some true := by decide +kernel
  obtain ⟨⟨k', t'⟩, hcall, hany⟩ := Option.map_eq_some_iff.1 hrun
  refine ⟨k', t', hcall, ?_⟩
  rintro ⟨new, hnew, hconfined⟩
  obtain ⟨abs, habs, hres⟩ := List.any_eq_true.1 hany
  have hroot : ProcFs.linked.routed = [] := rfl
  have hnew' : abs ∈ new := by
    rw [hnew, hroot, List.append_nil] at habs
    exact habs
  cases hrel : t'.resolve abs with
  | none =>
    rw [hrel] at hres
    cases hres
  | some r =>
    obtain ⟨i, rel⟩ := r
    rw [hrel] at hres
    refine (hconfined abs hnew').rel i rel hrel ?_
    exact List.mem_filter.2 ⟨List.contains_iff_mem.1 hres, by decide⟩

/-- In a run of calls that are sound in their states, every path that is routed is confined. -/
theorem run_confined {calls : List PathCall} (hsound : RunSound lower B calls (k, t))
    (h : run lower B calls (k, t) = some (k', t')) :
    ∃ new, t'.routed = new ++ t.routed ∧ ∀ abs ∈ new, t'.Confined abs := by
  suffices hroutes : Routes t t' True by
    obtain ⟨new, hnew, hfree⟩ := hroutes
    exact ⟨new, hnew, fun abs habs => confined_of_dotFree (hfree.2 trivial abs habs)⟩
  induction calls generalizing k t with
  | nil =>
    cases h
    exact .refl
  | cons c calls ih =>
    unfold run at h
    rw [foldlM_cons] at h
    obtain ⟨⟨k1, t1⟩, hstep, hrest⟩ := bind_eq_some_iff.1 h
    have hcall := (exec_routes hstep).congr (iff_true_intro hsound.1)
    exact hcall.silent (ih (hsound.2 _ hstep) hrest)

end PathCall

end Univdreams.Emulator
