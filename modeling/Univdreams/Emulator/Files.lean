import Univdreams.Emulator.Kernel

/-!
# The files of a mount table

A file is at a place: in the root, under its normalised path, or at a node of a mount. `contents`
says what is at each place. The files of a mounted file system are given by a `FileView`: the node
that a path names, and what is at a node in a state. Several paths can be spellings of one name, so
that what an operation does is said of nodes and not of paths. `Backend.Lawful` says in these terms
what the trait `MountFs` documents of its operations. An operation `Keeps` the files when it changes
neither the contents of a place nor where paths lead.
-/

namespace Univdreams.Emulator

/-- Where a file can be, with mounts whose nodes are of type `κ`. -/
inductive Place (κ : Type) where
  /-- In the root, with its normalised path. -/
  | root (key : Text)
  /-- In a mount, at a node of it. -/
  | overlay (i : ℕ) (node : κ)
  deriving DecidableEq, Repr

/-- What can be at a place. -/
inductive Content where
  | file (bytes : Bytes)
  | dir
  | symlink (target : Text)
  | charDevice
  deriving DecidableEq, Repr

/-- The kind of a node. -/
def Content.kind : Content → NodeKind
  | .file _ => .file
  | .dir => .dir
  | .symlink _ => .symlink
  | .charDevice => .charDevice

/-- What is in a file system with states of type `σ`. -/
structure FileView (σ κ : Type) where
  /-- The node that a path names, of which it can be one of several spellings. -/
  node : Text → κ
  /-- What is at a node in a state. -/
  content : σ → κ → Option Content

/-- What `MountFs` documents of the operations that look and create. -/
structure Backend.Lawful {σ κ : Type} [DecidableEq κ] (B : Backend σ) (V : FileView σ κ) :
    Prop where
  stat_keeps : ∀ s rel, V.content (B.stat s rel).2 = V.content s
  readlink_keeps : ∀ s rel, V.content (B.readlink s rel).2 = V.content s
  /-- An empty regular file is created, and what is there stays as it is. -/
  create_ok : ∀ s rel mode, (B.create s rel mode).1 = .ok () →
    V.content (B.create s rel mode).2 = Function.update (V.content s) (V.node rel)
      (some ((V.content s (V.node rel)).getD (.file [])))
  create_error : ∀ s rel mode e, (B.create s rel mode).1 = .error e →
    V.content (B.create s rel mode).2 = V.content s

namespace MountTable

variable {σ κ : Type}

/-- The place that a path names. -/
def place (lower : Char → Text) (V : FileView σ κ) (t : MountTable σ) (abs : Text) : Place κ :=
  match t.resolve abs with
  | some (i, rel) => .overlay i (V.node rel)
  | none => .root (normalizePath lower abs)

/-- What is at a place. The directories of the root are implicit. -/
def contents (V : FileView σ κ) (t : MountTable σ) : Place κ → Option Content
  | .root key => (t.root.file key).map .file
  | .overlay i node => t.overlays[i]?.bind fun m => V.content m.fs node

/-- The table `t'` has the mount points and the files of `t`. -/
structure Keeps (V : FileView σ κ) (t t' : MountTable σ) : Prop where
  points : t'.points = t.points
  contents : t'.contents V = t.contents V

namespace Keeps

variable {V : FileView σ κ} {t t' t'' : MountTable σ}

protected theorem refl : Keeps V t t := ⟨rfl, rfl⟩

protected theorem trans (h : Keeps V t t') (h' : Keeps V t' t'') : Keeps V t t'' :=
  ⟨h'.points.trans h.points, h'.contents.trans h.contents⟩

theorem root_file (h : Keeps V t t') (key : Text) : t'.root.file key = t.root.file key :=
  Option.map_injective (fun _ _ => Content.file.inj) (congrFun h.contents (.root key))

theorem resolve (h : Keeps V t t') (abs : Text) : t'.resolve abs = t.resolve abs := by
  unfold MountTable.resolve
  rw [h.points]

theorem place {lower : Char → Text} (h : Keeps V t t') (abs : Text) :
    t'.place lower V abs = t.place lower V abs := by
  unfold MountTable.place
  rw [h.resolve]

end Keeps

section Lookups

variable {lower : Char → Text} {B : Backend σ} {V : FileView σ κ}
  {t : MountTable σ}

theorem points_setFs (i : ℕ) (fs : σ) : (t.setFs i fs).points = t.points :=
  map_point_modify t.overlays i fs

theorem points_onFs {α : Type} (i : ℕ) (absent : α) (f : σ → α × σ) :
    (t.onFs i absent f).2.points = t.points := by
  unfold onFs
  split
  · exact points_setFs _ _
  · rfl

/-- What is in the mounts when one of them is in another state. -/
theorem contents_setFs_overlay (i : ℕ) (fs : σ) (j : ℕ) (node : κ) :
    (t.setFs i fs).contents V (.overlay j node) =
      if i = j then t.overlays[j]?.bind fun _ => V.content fs node
      else t.contents V (.overlay j node) := by
  unfold contents setFs
  simp only [List.getElem?_modify]
  cases t.overlays[j]? with
  | none => simp
  | some m => split <;> simp_all

/-- An operation of a mount that keeps its files keeps those of the table. -/
theorem keeps_onFs {α : Type} (i : ℕ) (absent : α) {f : σ → α × σ}
    (h : ∀ fs, V.content (f fs).2 = V.content fs) : Keeps V t (t.onFs i absent f).2 := by
  refine ⟨points_onFs i absent f, ?_⟩
  unfold onFs
  split
  next m hm =>
    funext q
    cases q with
    | root key => rfl
    | overlay j node =>
      rw [contents_setFs_overlay]
      split
      next hij =>
        subst hij
        simp [contents, hm, h]
      next => rfl
  next => exact rfl

theorem keeps_record (abs : Text) : Keeps V t (t.record abs) := ⟨rfl, rfl⟩

theorem keeps_onPath {α : Type} (abs : Text) (absent : α) {f : Text → σ → α × σ}
    {onRoot : MountTable σ → α × MountTable σ} (h : ∀ rel fs, V.content (f rel fs).2 = V.content fs)
    (hroot : ∀ t, Keeps V t (onRoot t).2) : Keeps V t (t.onPath abs absent f onRoot).2 := by
  unfold onPath
  have hrecord : Keeps V t (t.record abs) := keeps_record abs
  split
  · exact hrecord.trans (keeps_onFs _ _ (h _))
  · exact hrecord.trans (hroot _)

variable [DecidableEq κ]

/-- To look up a path changes no file. -/
theorem keeps_statPath (hB : B.Lawful V) (abs : Text) : Keeps V t (t.statPath lower B abs).2 :=
  keeps_onPath abs none (fun rel fs => hB.stat_keeps fs rel) fun _ => .refl

/-- To read a link changes no file. -/
theorem keeps_readlinkPath (hB : B.Lawful V) (abs : Text) : Keeps V t (t.readlinkPath B abs).2 :=
  keeps_onPath abs _ (fun rel fs => hB.readlink_keeps fs rel) fun _ => .refl

/-- To follow links changes no file. -/
theorem keeps_followLinks (hB : B.Lawful V) (n : ℕ) (p : Text) :
    Keeps V t (followLinks lower B n p t).2 := by
  induction n generalizing p t with
  | zero => exact .refl
  | succ n ih =>
    unfold followLinks
    have hstat : Keeps V t (t.statPath lower B p).2 := keeps_statPath hB p
    dsimp only
    split
    · have hlink := hstat.trans (keeps_readlinkPath hB p)
      split
      · exact hlink.trans (ih _)
      · exact hlink
    · exact hstat

theorem keeps_resolveSymlinks (hB : B.Lawful V) (path : Text) :
    Keeps V t (t.resolveSymlinks lower B path).2 :=
  keeps_followLinks hB _ _

end Lookups

end MountTable

end Univdreams.Emulator
