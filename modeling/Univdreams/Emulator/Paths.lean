import Univdreams.PathText

/-!
# The paths of the guest

Three functions normalise paths. `canonicalize` of `src/emulator/linux/mod.rs` walks the path of a
system call: it resolves dots, and only `/` is a separator. `norm_abs` of
`src/emulator/fsmount/mod.rs` routes paths to mounts: a backslash is a separator as well, and dots
are components like others. `normalize_path` of `src/emulator/context.rs` finds a file in the
in-memory file system, without regard to case.

Over components, the first two and `under_mount` are a walk, a change of separators
(`normAbs_eq`) and a search for a list in front of another one (`underMount_absText`).
-/

namespace Univdreams.Emulator

open PathText List
open Text

/-! ## System calls -/

/-- The separator of `canonicalize`. -/
def isSlash (c : Char) : Bool := c = '/'

variable (base path : Text)

/-- `canonicalize`. -/
def canonicalize : Text :=
  let first := if path.head? = some '/' then [] else base
  absText ((first.splitOnP isSlash ++ path.splitOnP isSlash).foldl walk [])

/-- The path from the root that a path stands for in a directory, with its dots. -/
def joined : List Text :=
  pieces isSlash (if path.head? = some '/' then [] else base) ++ pieces isSlash path

theorem canonicalize_eq : canonicalize base path = absText (walked (joined base path)) := by
  unfold canonicalize walked joined pieces
  rw [← filter_append, foldl_walk_filter]

/-- What is walked to consists of pieces of the path that are no dots. -/
theorem mem_walked {base path w : Text} (h : w ∈ walked (joined base path)) :
    w ∈ joined base path ∧ w ≠ [] ∧ ¬IsDot w :=
  (mem_foldl_walk h).resolve_left not_mem_nil

theorem components_walked : Components isSlash (walked (joined base path)) := by
  intro w hw
  rcases mem_append.1 (mem_walked hw).1 with hw | hw
  · exact components_pieces _ w hw
  · exact components_pieces _ w hw

/-- Canonical paths compose: a path in the directory of another one is the path of both. What is
returned is `/`, or it has a slash before each of its components, none of which is empty, `.` or
`..`, and none behind the last. It stands for itself in every directory. -/
theorem canonicalize_action : (∀ b p q : Text, p ≠ [] → q.head? ≠ some '/' →
      canonicalize (canonicalize b p) q = canonicalize b (p ++ '/' :: q)) ∧
    ∀ b p : Text,
      (∃ cs, canonicalize b p = absText cs ∧ Components isSlash cs ∧ ∀ c ∈ cs, ¬IsDot c) ∧
      (canonicalize b p).head? = some '/' ∧
      (canonicalize b p = ['/'] ∨ (canonicalize b p).getLast? ≠ some '/') ∧
      ∀ d, canonicalize d (canonicalize b p) = canonicalize b p := by
  refine ⟨fun b p q hp hq => ?_, fun b p => ?_⟩
  · have hhead : (p ++ '/' :: q).head? = p.head? := by
      obtain ⟨c, p, rfl⟩ := List.exists_cons_of_ne_nil hp
      rfl
    have hjoined : joined b (p ++ '/' :: q) = joined b p ++ pieces isSlash q := by
      rw [joined, joined, hhead, pieces_append_cons rfl, List.append_assoc]
    rw [canonicalize_eq, canonicalize_eq b, canonicalize_eq b, hjoined, joined, if_neg hq,
      pieces_absText rfl (components_walked b p), walked_append, walked_append,
      walked_of_forall fun c hc => (mem_walked hc).2]
  have hcomponents := components_walked b p
  rw [canonicalize_eq]
  refine ⟨⟨_, rfl, hcomponents, fun c hc => (mem_walked hc).2.2⟩, head?_absText _, ?_,
    fun d => ?_⟩
  · unfold absText
    split
    next => exact .inl rfl
    next h =>
      -- The text ends with the last component, which has no slash in it.
      obtain ⟨cs, c, hcs⟩ := List.eq_nil_or_concat' _ |>.resolve_left h
      obtain ⟨hne, hslash⟩ := hcomponents c (by simp [hcs])
      rw [hcs, List.flatMap_append, List.flatMap_singleton, List.getLast?_append_cons,
        List.getLast?_cons_of_ne_nil hne]
      exact .inr fun hlast => by simpa [isSlash] using hslash '/' (List.mem_of_getLast? hlast)
  · rw [canonicalize_eq, joined, head?_absText, if_pos rfl, pieces_nil, List.nil_append,
      pieces_absText rfl hcomponents, walked_of_forall fun c hc => (mem_walked hc).2]

/-! ## Routing -/

/-- The separators of `norm_abs`. -/
def isSeparator (c : Char) : Bool := c = '/' || c = '\\'

/-- The loop of `norm_abs`, where `prevSlash` says that the last character was a separator. -/
def collapseSlashes : (prevSlash : Bool) → Text → Text
  | _, [] => []
  | prevSlash, c :: cs =>
    let c := if c = '\\' then '/' else c
    if c = '/' then
      if prevSlash then collapseSlashes true cs else c :: collapseSlashes true cs
    else c :: collapseSlashes false cs

/-- Without a slash at the end, which is left alone if it is all there is. -/
def popSlash (s : Text) : Text :=
  if 1 < s.length ∧ s.getLast? = some '/' then s.dropLast else s

/-- `norm_abs`. -/
def normAbs (path : Text) : Text :=
  let start := if path.head? ≠ some '/' ∧ path.head? ≠ some '\\' then ['/'] else []
  popSlash (start ++ collapseSlashes false path)

/-- `under_mount`: the path below the mount point, when it is the point or lies below it. -/
def underMount (point abs : Text) : Option Text :=
  if point = ['/'] then some abs
  else if abs = point then some ['/']
  else (stripPrefix? abs (point ++ ['/'])).map fun rest => '/' :: rest

/-! ### What `norm_abs` computes -/

/-- The pieces of a text behind a separator, with one separator behind each piece but the last. -/
def slashed : List Text → Text
  | [] => []
  | [h] => h
  | h :: t => if h = [] then slashed t else h ++ '/' :: slashed t

theorem slashed_cons_of_ne_nil {h : Text} {t : List Text} (ht : t ≠ []) :
    slashed (h :: t) = if h = [] then slashed t else h ++ '/' :: slashed t := by
  obtain ⟨x, xs, rfl⟩ := exists_cons_of_ne_nil ht
  rfl

/-- What the loop leaves, over the pieces: behind a separator a further one is left out, and
elsewhere the first piece ends a longer one. -/
theorem collapseSlashes_eq (p : Text) :
    collapseSlashes true p = slashed (p.splitOnP isSeparator) ∧
      ∀ h t, p.splitOnP isSeparator = h :: t →
        collapseSlashes false p = if t = [] then h else h ++ '/' :: slashed t := by
  induction p with
  | nil => simp [collapseSlashes, slashed]
  | cons c cs ih =>
    obtain ⟨ihTrue, ihFalse⟩ := ih
    obtain ⟨h', t', hsplit⟩ := exists_cons_of_ne_nil (splitOnP_ne_nil isSeparator cs)
    rw [splitOnP_cons_eq_if_modifyHead, hsplit]
    by_cases hc : isSeparator c
    · have hslash : (if c = '\\' then '/' else c) = '/' := by
        simp only [isSeparator, Bool.or_eq_true, decide_eq_true_eq] at hc
        rcases hc with rfl | rfl <;> rfl
      rw [if_pos hc]
      simp only [collapseSlashes, hslash, if_true, Bool.false_eq_true, if_false]
      refine ⟨by rw [ihTrue, hsplit]; rfl, ?_⟩
      rintro h t ⟨⟩
      rw [if_neg (by simp), ihTrue, hsplit]
      rfl
    · have hback : c ≠ '\\' := by rintro rfl; exact hc rfl
      have hslash : c ≠ '/' := by rintro rfl; exact hc rfl
      rw [if_neg hc, modifyHead_cons]
      simp only [collapseSlashes, if_neg hback, if_neg hslash]
      have hrest := ihFalse h' t' hsplit
      constructor
      · rw [hrest]
        by_cases ht : t' = []
        · simp [ht, slashed]
        · rw [slashed_cons_of_ne_nil ht, if_neg ht]
          simp
      rintro h t ⟨⟩
      rw [hrest]
      split_ifs <;> simp

theorem popSlash_append_slash {s : Text} (hs : s ≠ []) : popSlash (s ++ ['/']) = s := by
  have hlen : 1 < (s ++ ['/']).length := by
    have := length_pos_iff.2 hs
    simpa using this
  simp [popSlash, hs]

theorem getLast?_append_ne_slash {s c : Text} (hc : c ≠ []) (h : ∀ x ∈ c, isSeparator x = false) :
    (s ++ c).getLast? ≠ some '/' := by
  rw [List.getLast?_append_of_ne_nil s hc]
  intro hlast
  have := h '/' (mem_of_getLast? hlast)
  simp [isSeparator] at this

/-- Behind components, pieces that are not empty become components, and a final slash is left
out. -/
theorem popSlash_slashed {cs : List Text} (hcs : Components isSeparator cs) {L : List Text}
    (hL : L ≠ []) (hsep : ∀ p ∈ L, ∀ x ∈ p, isSeparator x = false) :
    popSlash (cs.flatMap (fun c => '/' :: c) ++ '/' :: slashed L) =
      absText (cs ++ L.filter (· ≠ [])) := by
  induction L generalizing cs with
  | nil => exact absurd rfl hL
  | cons h t ih =>
    have hh := hsep h mem_cons_self
    by_cases ht : t = []
    · subst ht
      by_cases hne : h = []
      · -- Nothing follows the last slash.
        subst hne
        simp only [slashed, ne_eq, not_true_eq_false, decide_false, filter_cons_of_neg,
          Bool.false_eq_true, not_false_eq_true, filter_nil, append_nil, absText]
        by_cases hcs' : cs = []
        · simp [hcs', popSlash]
        have htext : cs.flatMap (fun c => '/' :: c) ≠ [] := by
          obtain ⟨d, ds, rfl⟩ := exists_cons_of_ne_nil hcs'
          simp
        rw [popSlash_append_slash htext, if_neg hcs']
      · have hlast : (cs.flatMap (fun c => '/' :: c) ++ '/' :: h).getLast? ≠ some '/' := by
          have := getLast?_append_ne_slash (s := cs.flatMap (fun c => '/' :: c) ++ ['/']) hne hh
          simpa using this
        simp only [slashed, popSlash, hlast, and_false, if_false, absText]
        simp [hne]
    · have ht' : ∀ p ∈ t, ∀ x ∈ p, isSeparator x = false := fun p hp =>
        hsep p (mem_cons_of_mem _ hp)
      rw [slashed_cons_of_ne_nil ht]
      by_cases hne : h = []
      · simpa [hne] using ih hcs ht ht'
      have hcs' : Components isSeparator (cs ++ [h]) := by
        intro c hc
        rcases mem_append.1 hc with hc | hc
        · exact hcs c hc
        · rw [mem_singleton] at hc
          exact hc ▸ ⟨hne, hh⟩
      simpa [hne] using ih hcs' ht ht'

/-- `norm_abs` keeps the pieces of a path, between separators of both kinds, as components. -/
theorem normAbs_eq (path : Text) : normAbs path = absText (pieces isSeparator path) := by
  have hsep : ∀ p ∈ path.splitOnP isSeparator, ∀ x ∈ p, isSeparator x = false :=
    fun p hp => notMem_splitOnP hp
  have hspec := popSlash_slashed components_nil (splitOnP_ne_nil isSeparator path) hsep
  have hstart : (if path.head? ≠ some '/' ∧ path.head? ≠ some '\\' then ['/'] else []) ++
      collapseSlashes false path = '/' :: slashed (path.splitOnP isSeparator) := by
    rw [← (collapseSlashes_eq path).1]
    cases path with
    | nil => rfl
    | cons c cs =>
      by_cases h1 : c = '/'
      · subst h1
        simp [collapseSlashes]
      by_cases h2 : c = '\\'
      · subst h2
        simp [collapseSlashes]
      · simp [collapseSlashes, h1, h2]
  unfold normAbs
  simpa [hstart, pieces] using hspec

/-- Normalised twice is normalised once. -/
theorem normAbs_absText {cs : List Text} (hcs : Components isSeparator cs) :
    normAbs (absText cs) = absText cs := by
  rw [normAbs_eq, pieces_absText rfl hcs]

theorem normAbs_normAbs (path : Text) : normAbs (normAbs path) = normAbs path := by
  rw [normAbs_eq path]
  exact normAbs_absText (components_pieces path)

/-- A path lies below a mount point that its first components are. -/
theorem underMount_absText {ps cs : List Text} (hps : Components isSeparator ps)
    (hcs : Components isSeparator cs) (rel : Text) :
    underMount (absText ps) (absText cs) = some rel ↔ ∃ rs, cs = ps ++ rs ∧ rel = absText rs := by
  have hroot : absText ps = ['/'] ↔ ps = [] := by
    constructor
    · intro h
      exact absText_injective rfl hps components_nil (h.trans (by simp [absText]))
    · rintro rfl
      simp [absText]
  unfold underMount
  split_ifs with h1 h2
  · obtain rfl := hroot.1 h1
    simp [eq_comm]
  · have hsame := absText_injective rfl hcs hps h2
    subst hsame
    simp [absText, eq_comm]
  have hne : ps ≠ [] := fun h => h1 (hroot.2 h)
  have hps' : absText ps = ps.flatMap fun c => '/' :: c := by simp [absText, hne]
  constructor
  · intro h
    obtain ⟨rest, hrest, rfl⟩ := Option.map_eq_some_iff.1 h
    obtain ⟨u, hu⟩ : ∃ u, absText ps ++ ['/'] ++ u = absText cs ∧ u = rest := by
      unfold stripPrefix? at hrest
      split_ifs at hrest with hpre
      obtain ⟨u, hu⟩ := hpre
      refine ⟨u, hu, ?_⟩
      rw [← hu] at hrest
      simpa using hrest
    obtain ⟨hu, rfl⟩ := hu
    have hpieces : cs = ps ++ pieces isSeparator u := by
      rw [← pieces_absText rfl hcs, ← hu, hps', append_assoc,
        singleton_append, pieces_flatMap_append rfl hps]
    refine ⟨pieces isSeparator u, hpieces, ?_⟩
    have hrs : pieces isSeparator u ≠ [] := by
      intro hnil
      rw [hnil, append_nil] at hpieces
      exact h2 (by rw [hpieces])
    rw [hpieces, absText_append hne hrs, append_assoc, append_cancel_left_eq] at hu
    exact hu
  · rintro ⟨rs, rfl, rfl⟩
    have hrs : rs ≠ [] := by
      rintro rfl
      simp at h2
    obtain ⟨r, rs', rfl⟩ := exists_cons_of_ne_nil hrs
    have htext : absText (ps ++ r :: rs') =
        absText ps ++ ['/'] ++ (r ++ rs'.flatMap fun c => '/' :: c) := by
      rw [absText_append hne hrs]
      simp [absText]
    rw [htext]
    simp [stripPrefix?, absText]

/-! ## The names of files in the in-memory file system -/

/-- The long and the short names of the registry hives. -/
def hives : List (Text × Text) :=
  [("hkey_local_machine", "hklm"), ("hkey_current_user", "hkcu"), ("hkey_classes_root", "hkcr"),
    ("hkey_users", "hku")].map fun p => (p.1.toList, p.2.toList)

/-- `normalize_path`, where `lower` is the lower case of a character, which can be several. -/
def normalizePath (lower : Char → Text) (path : Text) : Text :=
  let out := path.flatMap fun c => if c = '\\' then ['/'] else lower c
  let short := hives.findSome? fun (long, short) =>
    if out = long then some short
    else (stripPrefix? out (long ++ ['/'])).map fun rest => short ++ '/' :: rest
  short.getD out

/-- The lower case of ASCII characters. -/
def asciiLower (c : Char) : Text := [c.toLower]

example : normalizePath asciiLower "C:\\Windows\\Foo.INI".toList = "c:/windows/foo.ini".toList := by
  decide

end Univdreams.Emulator
