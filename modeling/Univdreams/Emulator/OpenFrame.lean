import Univdreams.Emulator.FlatFs
import Univdreams.Emulator.ProcFs

/-!
# What `openat` does to the files

To open a file should leave every file as it is and create at most the file that is named
(`OpenFrame`). `sys_openat` implements `O_CREAT` by `MountTable::write_path`, which writes an empty
file into the root without routing: a file of the root that is there loses its contents, and for a
path in a mount a file appears in the root. These are the only ways in which it fails
(`sysOpenat_frame_iff`).
-/

namespace Univdreams.Emulator

open Option VirtualFs

namespace MountTable

variable {σ κ : Type} {lower : Char → Text} {B : Backend σ} {V : FileView σ κ}

/-- Every file that was there holds what it held, and no file but the named one is new. -/
structure OpenFrame (V : FileView σ κ) (t t' : MountTable σ) (named : Place κ) :
    Prop where
  kept : ∀ q b, t.contents V q = some b → t'.contents V q = some b
  created : ∀ q, t.contents V q = none → t'.contents V q ≠ none → q = named

namespace OpenFrame

variable {t t' t'' : MountTable σ} {named : Place κ}

theorem of_keeps (h : Keeps V t t') : OpenFrame V t t' named := by
  constructor
  · intro q b hq
    rwa [h.contents]
  intro q hq hq'
  rw [h.contents] at hq'
  exact absurd hq hq'

protected theorem trans (h : OpenFrame V t t' named) (h' : OpenFrame V t' t'' named) :
    OpenFrame V t t'' named := by
  refine ⟨fun q b hq => h'.kept q b (h.kept q b hq), fun q hq hq' => ?_⟩
  by_cases hmid : t'.contents V q = none
  · exact h'.created q hmid hq'
  · exact h.created q hq hmid

/-- A change of the root alone. -/
theorem of_root (hover : t'.overlays = t.overlays)
    (hkept : ∀ key b, t.root.file key = some b → t'.root.file key = some b)
    (hcreated : ∀ key, t.root.file key = none → t'.root.file key ≠ none → .root key = named) :
    OpenFrame V t t' named := by
  constructor
  · rintro (key | ⟨i, rel⟩) c hq
    · obtain ⟨b, hb, rfl⟩ := map_eq_some_iff.1 hq
      exact map_eq_some_iff.2 ⟨b, hkept key b hb, rfl⟩
    unfold contents
    rw [hover]
    exact hq
  rintro (key | ⟨i, rel⟩) hq hq'
  · exact hcreated key (map_eq_none_iff.1 hq) fun h => hq' (map_eq_none_iff.2 h)
  unfold contents at hq'
  rw [hover] at hq'
  exact absurd hq hq'

end OpenFrame

variable {t : MountTable σ}

theorem keeps_addHandle (i : ℕ) (rel : Text) (access : FileAccess) :
    Keeps V t (t.addHandle i rel access).2 := ⟨rfl, rfl⟩

/-- `write_path` with an empty file changes nothing if it is there and empty, and creates it if it
is not there. -/
theorem openFrame_writePath {p : Text}
    (h : ∀ b, t.root.file (normalizePath lower p) = some b → b = []) :
    OpenFrame V t (t.writePath lower p []) (.root (normalizePath lower p)) := by
  refine .of_root rfl (fun key b hq => ?_) fun key hq hq' => ?_
  · show (t.root.writePath lower p []).file key = some b
    rw [file_writePath]
    split_ifs with hkey
    · rw [h b (hkey ▸ hq)]
    · exact hq
  have hq' : (t.root.writePath lower p []).file key ≠ none := hq'
  rw [file_writePath] at hq'
  split_ifs at hq' with hkey
  · rw [hkey]
  · exact absurd hq hq'

theorem keeps_writePath {p : Text} (h : t.root.file (normalizePath lower p) = some []) :
    Keeps V t (t.writePath lower p []) := by
  refine ⟨rfl, ?_⟩
  funext q
  rcases q with key | ⟨i, rel⟩
  · show ((t.root.writePath lower p []).file key).map _ = (t.root.file key).map _
    rw [file_writePath]
    split_ifs with hkey
    · rw [hkey, h]
    · rfl
  · rfl

variable [DecidableEq κ]

/-- To create a file in a mount leaves the others alone. -/
theorem openFrame_create (hB : B.Lawful V) (i : ℕ) (rel : Text) (mode : ℕ) :
    OpenFrame V t (t.onFs i (.error .other) fun fs => B.create fs rel mode).2
      (.overlay i (V.node rel)) := by
  unfold onFs
  split
  next m hm =>
    have hcreate : ∀ node, V.content (B.create m.fs rel mode).2 node = V.content m.fs node ∨
        node = V.node rel ∧ V.content (B.create m.fs rel mode).2 node =
          some ((V.content m.fs (V.node rel)).getD (.file [])) := by
      intro node
      cases hres : (B.create m.fs rel mode).1 with
      | error e =>
        rw [hB.create_error _ _ _ e hres]
        exact .inl rfl
      | ok u =>
        rw [hB.create_ok _ _ _ hres]
        by_cases hnode : node = V.node rel
        · exact .inr ⟨hnode, by rw [hnode, Function.update_self]⟩
        · exact .inl (Function.update_of_ne hnode _ _)
    constructor
    · rintro (key | ⟨j, node⟩) b hq
      · exact hq
      rw [contents_setFs_overlay]
      split
      next hij =>
        subst hij
        have hb : V.content m.fs node = some b := by simpa [contents, hm] using hq
        obtain h | ⟨rfl, h⟩ := hcreate node
        · simp [hm, h, hb]
        · simp [hm, h, hb]
      next => exact hq
    · rintro (key | ⟨j, node⟩) hq hq'
      · exact absurd hq hq'
      rw [contents_setFs_overlay] at hq'
      split at hq'
      next hij =>
        subst hij
        have hnone : V.content m.fs node = none := by simpa [contents, hm] using hq
        obtain h | ⟨rfl, -⟩ := hcreate node
        · simp [hm, h, hnone] at hq'
        · rfl
      next => exact absurd hq hq'
  next => exact .of_keeps .refl

/-- `open` creates at most the file that its path names. -/
theorem openFrame_open (hB : B.Lawful V) (path : Text) (access : FileAccess) :
    OpenFrame V t (t.open lower B path access).2 (t.place lower V path) := by
  unfold MountTable.open place
  cases hres : t.resolve path with
  | none =>
    refine .of_root rfl (fun key b hq => ?_) fun key hq hq' => ?_
    · show (t.root.open lower path access).2.file key = some b
      rw [file_open, if_neg (by simp [hq]), hq]
    have hq' : (t.root.open lower path access).2.file key ≠ none := hq'
    rw [file_open] at hq'
    split_ifs at hq' with h
    · rw [h.1]
    · exact absurd hq hq'
  | some found =>
    obtain ⟨i, rel⟩ := found
    dsimp only
    have hstat : Keeps V t ((t.record path).onFs i none fun fs => B.stat fs rel).2 :=
      (keeps_record path).trans (keeps_onFs i none fun fs => hB.stat_keeps fs rel)
    split
    · exact .of_keeps (hstat.trans (keeps_addHandle i rel access))
    split
    · exact .of_keeps hstat
    have hcreate := (OpenFrame.of_keeps hstat).trans (openFrame_create hB i rel 0o644)
    split
    · exact hcreate.trans (.of_keeps (keeps_addHandle i rel access))
    · exact hcreate

end MountTable

namespace Kernel

open MountTable

variable {σ κ : Type} (lower : Char → Text) (B : Backend σ)

/-- The path that a call of `openat` names, behind its links. -/
def namedPath (k : Kernel) (dirfd : ℤ) (path : Option Text) (flags : ℕ) (t : MountTable σ) : Text :=
  match k.resolveAt dirfd path with
  | some p => (openPath lower B p flags t).1
  | none => []

/-- `O_CREAT` is given for a path that is no directory, and the root has a nonempty file with that
name, or the path lies in a mount and the root has none. -/
def Clobbers (p : Text) (flags : ℕ) (t : MountTable σ) : Prop :=
  hasFlag flags oCREAT ∧ (opensDir lower B p flags t).1 = false ∧
    ((∃ b, b ≠ [] ∧ t.root.file (normalizePath lower p) = some b) ∨
      ((t.resolve p).isSome ∧ t.root.file (normalizePath lower p) = none))

variable {lower} {B} [DecidableEq κ] {V : FileView σ κ} {t : MountTable σ}

theorem keeps_openPath (hB : B.Lawful V) (p : Text) (flags : ℕ) :
    Keeps V t (openPath lower B p flags t).2 := by
  unfold openPath
  split
  · exact .refl
  · exact keeps_resolveSymlinks hB p

theorem keeps_opensDir (hB : B.Lawful V) (p : Text) (flags : ℕ) :
    Keeps V t (opensDir lower B p flags t).2 := by
  unfold opensDir
  split
  · exact .refl
  · exact keeps_statPath hB p

/-- The part of `openat` from `O_CREAT` on. -/
theorem openFile_frame_iff (hB : B.Lawful V) (k : Kernel) (p : Text) (flags : ℕ) :
    OpenFrame V t (openFile lower B k p flags t).2.2 (t.place lower V p) ↔
      ¬ (hasFlag flags oCREAT ∧
        ((∃ b, b ≠ [] ∧ t.root.file (normalizePath lower p) = some b) ∨
          ((t.resolve p).isSome ∧ t.root.file (normalizePath lower p) = none))) := by
  rw [openFile_table]
  by_cases hcreat : hasFlag flags oCREAT
  swap
  · simp only [hcreat, Bool.false_eq_true, if_false, false_and, not_false_eq_true, iff_true]
    exact openFrame_open hB p _
  rw [if_pos hcreat]
  have hopen : OpenFrame V (t.writePath lower p [])
      ((t.writePath lower p []).open lower B p (accessOf flags)).2 (t.place lower V p) :=
    openFrame_open hB p (accessOf flags)
  -- The root has an empty file with the name of the path afterwards.
  have hempty : ((t.writePath lower p []).open lower B p (accessOf flags)).2.contents V
      (.root (normalizePath lower p)) = some (.file []) := by
    refine hopen.kept _ _ ?_
    show ((t.root.writePath lower p []).file _).map Content.file = some (.file [])
    rw [file_writePath, if_pos rfl, map_some]
  constructor
  · rintro hframe ⟨-, ⟨b, hb, hfile⟩ | ⟨hsome, hnone⟩⟩
    · have hkept := hframe.kept (.root (normalizePath lower p)) (.file b)
        (by simp [contents, hfile])
      rw [hempty] at hkept
      exact hb (Content.file.inj (Option.some.inj hkept)).symm
    have hnamed := hframe.created (.root (normalizePath lower p)) (by simp [contents, hnone])
      (by rw [hempty]; simp)
    obtain ⟨⟨i, rel⟩, hres⟩ := isSome_iff_exists.1 hsome
    unfold place at hnamed
    rw [hres] at hnamed
    cases hnamed
  · intro hnot
    have hall : ∀ b, t.root.file (normalizePath lower p) = some b → b = [] := by
      intro b hb
      by_contra hne
      exact hnot ⟨hcreat, .inl ⟨b, hne, hb⟩⟩
    cases hfile : t.root.file (normalizePath lower p) with
    | some b =>
      obtain rfl := hall b hfile
      exact (OpenFrame.of_keeps (keeps_writePath hfile)).trans hopen
    | none =>
      have hres : t.resolve p = none := by
        by_contra hsome
        exact hnot ⟨hcreat, .inr ⟨isSome_iff_ne_none.2 hsome, hfile⟩⟩
      have hplace : t.place lower V p = .root (normalizePath lower p) := by
        unfold place
        rw [hres]
      rw [hplace] at hopen ⊢
      exact (openFrame_writePath hall).trans hopen

/-- `openat` leaves every file as it is and creates at most the file that is named, in the file
system that the path leads to, exactly unless `O_CREAT` writes an empty file over one of the root or
into the root for a path in a mount. -/
theorem sysOpenat_frame_iff (hB : B.Lawful V) (k : Kernel) (dirfd : ℤ) (path : Option Text)
    (flags : ℕ) (t : MountTable σ) :
    OpenFrame V t (sysOpenat lower B k dirfd path flags t).2.2
        (t.place lower V (namedPath lower B k dirfd path flags t)) ↔
      ∀ p, k.resolveAt dirfd path = some p →
        ¬ Clobbers lower B (openPath lower B p flags t).1 flags (openPath lower B p flags t).2 := by
  unfold sysOpenat namedPath
  cases hres : k.resolveAt dirfd path with
  | none => exact iff_of_true (.of_keeps .refl) (by simp)
  | some p₀ =>
    simp only [Option.some.injEq, forall_eq']
    have hpath : Keeps V t (openPath lower B p₀ flags t).2 := keeps_openPath hB p₀ flags
    generalize openPath lower B p₀ flags t = opened at hpath ⊢
    obtain ⟨p, t₁⟩ := opened
    have hdir : Keeps V t₁ (opensDir lower B p flags t₁).2 := keeps_opensDir hB p flags
    unfold Clobbers
    generalize opensDir lower B p flags t₁ = asked at hdir ⊢
    obtain ⟨isDir, t₂⟩ := asked
    have hkeeps := hpath.trans hdir
    cases isDir with
    | true =>
      refine iff_of_true ?_ (by simp)
      exact .of_keeps hkeeps
    | false =>
      have hroot : ∀ key, t₂.root.file key = t₁.root.file key := hdir.root_file
      have hiff : OpenFrame V t₂ _ (t₂.place lower V p) ↔ _ := openFile_frame_iff hB k p flags
      rw [hkeeps.place, hroot, hdir.resolve] at hiff
      simp only [Bool.false_eq_true, if_false, true_and]
      rw [← hiff]
      -- The lookups change no file, so that the frame can start behind them.
      have hback : Keeps V t₂ t := ⟨hkeeps.points.symm, hkeeps.contents.symm⟩
      exact ⟨(OpenFrame.of_keeps hback).trans, (OpenFrame.of_keeps hkeeps).trans⟩

/-- A file is created in a mount, where the root has an empty file of the same name. -/
theorem sysOpenat_frame_created :
    OpenFrame FlatFs.view FlatFs.sample
        (sysOpenat asciiLower FlatFs.backend fresh atFdcwd (some "/data/new".toList) (oCREAT + 1)
          FlatFs.sample).2.2
        (FlatFs.sample.place asciiLower FlatFs.view
          (namedPath asciiLower FlatFs.backend fresh atFdcwd
          (some "/data/new".toList) (oCREAT + 1) FlatFs.sample)) ∧
      (sysOpenat asciiLower FlatFs.backend fresh atFdcwd (some "/data/new".toList) (oCREAT + 1)
        FlatFs.sample).2.2.contents FlatFs.view (.overlay 0 "/new".toList) = some (.file []) := by
  refine ⟨?_, by decide +kernel⟩
  rw [sysOpenat_frame_iff FlatFs.lawful]
  intro p hp
  have hpath : fresh.resolveAt atFdcwd (some "/data/new".toList) = some "/data/new".toList := by
    decide
  rw [hpath] at hp
  cases hp
  rintro ⟨-, -, ⟨b, hb, hfile⟩ | ⟨-, hnone⟩⟩
  · have hempty : (openPath asciiLower FlatFs.backend "/data/new".toList (oCREAT + 1)
        FlatFs.sample).2.root.file (normalizePath asciiLower (openPath asciiLower FlatFs.backend
          "/data/new".toList (oCREAT + 1) FlatFs.sample).1) = some [] := by decide +kernel
    rw [hempty] at hfile
    cases hfile
    exact hb rfl
  · revert hnone
    decide +kernel

/-- To open an existing file with `O_CREAT` for reading empties it. -/
theorem not_openFrame_creat :
    ¬ OpenFrame ProcFs.view ProcFs.sample
      (sysOpenat asciiLower ProcFs.backend fresh atFdcwd
        (some "/a".toList) oCREAT ProcFs.sample).2.2
      (ProcFs.sample.place asciiLower ProcFs.view (namedPath asciiLower ProcFs.backend fresh atFdcwd
        (some "/a".toList) oCREAT ProcFs.sample)) := by
  intro h
  have hkept := h.kept (.root "/a".toList) (.file [1]) (by decide +kernel)
  revert hkept
  decide +kernel

end Kernel

end Univdreams.Emulator
