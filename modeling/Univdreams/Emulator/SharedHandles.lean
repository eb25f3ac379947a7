import Univdreams.Emulator.Processes
import Univdreams.Emulator.ProcFs

/-!
# Descriptors that share a file

A descriptor of a file holds the number of an open handle of the mount table, and a descriptor of a
socket the number of a socket. `dup`, `dup2`, `fcntl` and `fork` copy the number. Nothing counts the
copies, as is done for the ends of a pipe, and `close` closes the handle or the socket.

So a file stays usable through a descriptor (`Serves`) in the runs in which a handle is closed only
by the last descriptor that holds it. One more thing can go wrong: the handles of the root and those
of the mounts are numbered from two bases without regard to each other, and the numbers wrap around.
A new handle must not get the number of one that is open.
-/

namespace Univdreams.Emulator

open Tables AList Option List MountTable VirtualFs

variable {fd : ℤ}

namespace MountTable

variable {σ : Type} {lower : Char → Text} {B : Backend σ} {t t' t'' : MountTable σ} {h : ℕ}
  {q : Place Text} {pos : ℕ} {access : FileAccess}

/-! ## The use of a handle -/

/-- Where a path leads: to a file of the root, or to a path in a mount. -/
def route (lower : Char → Text) (t : MountTable σ) (abs : Text) : Place Text :=
  match t.resolve abs with
  | some (i, rel) => .overlay i rel
  | none => .root (normalizePath lower abs)

/-- What is read from the file at a place. -/
def placeRead (B : Backend σ) (t : MountTable σ) (pos len : ℕ) : Place Text → Option Bytes
  | .root key => (t.root.file key).map fun b => (b.drop pos).take len
  | .overlay i rel => t.overlays[i]?.bind fun m => (B.readAt m.fs rel pos len).1.toOption

/-- How much is written to the file at a place. -/
def placeWrite (B : Backend σ) (t : MountTable σ) (pos : ℕ) (data : Bytes) : Place Text → Option ℕ
  | .root key => (t.root.file key).map fun _ => data.length
  | .overlay i rel => t.overlays[i]?.bind fun m => (B.writeAt m.fs rel pos data).1.toOption

/-- The size of the file at a place. -/
def placeSize (B : Backend σ) (t : MountTable σ) : Place Text → Option ℕ
  | .root key => (t.root.file key).map List.length
  | .overlay i rel => t.overlays[i]?.bind fun m => (B.stat m.fs rel).1.map Attrs.size

/-- The handle is open on the file at the place: reads, writes and seeks through it are there, and a
file of the root exists. -/
structure Serves (B : Backend σ) (t : MountTable σ) (h : ℕ) (q : Place Text) (pos : ℕ)
    (access : FileAccess) : Prop where
  opened : t.Opened h q pos access
  file : ∀ key, q = .root key → (t.root.file key).isSome
  read : access.allowsRead → ∀ len, (t.readHandle B h len).1 = t.placeRead B pos len q
  write : access.allowsWrite → ∀ data, (t.writeHandle B h data).1 = t.placeWrite B pos data q
  seek : ∀ off whence, (t.seekHandle B h off whence).1 =
    (if whence = 1 then some pos else if whence = 2 then t.placeSize B q else some 0).map
      (VirtualFs.seekPos · off)

/-- Reading from an open handle reads the file at its position. -/
theorem readHandle_of_opened (ho : t.Opened h q pos access) (hr : access.allowsRead) (len : ℕ) :
    (t.readHandle B h len).1 = t.placeRead B pos len q := by
  unfold readHandle
  cases q with
  | root key =>
    obtain ⟨hnone, hsome⟩ := ho
    rw [hnone]
    unfold VirtualFs.readHandle
    rw [hsome]
    dsimp only [placeRead]
    rw [if_neg (by simp [hr])]
    cases t.root.file key with
    | none => rfl
    | some b => rfl
  | overlay i rel =>
    have hsome : t.handles.lookup h = some ⟨i, rel, pos, access⟩ := ho
    rw [hsome]
    dsimp only [placeRead]
    rw [if_neg (by simp [hr])]
    unfold onFs
    cases t.overlays[i]? with
    | none => rfl
    | some m =>
      dsimp only [bind_some]
      cases (B.readAt m.fs rel pos len).1 with
      | error e => rfl
      | ok bytes => rfl

/-- Writing to an open handle writes the file at its position. -/
theorem writeHandle_of_opened (ho : t.Opened h q pos access) (hw : access.allowsWrite)
    (data : Bytes) : (t.writeHandle B h data).1 = t.placeWrite B pos data q := by
  unfold writeHandle
  cases q with
  | root key =>
    obtain ⟨hnone, hsome⟩ := ho
    rw [hnone]
    unfold VirtualFs.writeHandle
    rw [hsome]
    dsimp only [placeWrite]
    rw [if_neg (by simp [hw])]
    cases t.root.file key with
    | none => rfl
    | some b => rfl
  | overlay i rel =>
    have hsome : t.handles.lookup h = some ⟨i, rel, pos, access⟩ := ho
    rw [hsome]
    dsimp only [placeWrite]
    rw [if_neg (by simp [hw])]
    unfold onFs
    cases t.overlays[i]? with
    | none => rfl
    | some m =>
      dsimp only [bind_some]
      cases (B.writeAt m.fs rel pos data).1 with
      | error e => rfl
      | ok n => rfl

/-- Where a seek of an open handle goes. -/
theorem seekHandle_of_opened (ho : t.Opened h q pos access) (off : ℤ) (whence : ℕ) :
    (t.seekHandle B h off whence).1 =
      (if whence = 1 then some pos else if whence = 2 then t.placeSize B q else some 0).map
        (VirtualFs.seekPos · off) := by
  unfold seekHandle
  cases q with
  | root key =>
    obtain ⟨hnone, hsome⟩ := ho
    rw [hnone]
    unfold VirtualFs.seekHandle VirtualFs.size
    rw [hsome]
    dsimp only [placeSize, bind_eq_bind, bind_some]
    split_ifs
    · rfl
    · cases t.root.file key with
      | none => rfl
      | some b => rfl
    · rfl
  | overlay i rel =>
    have hsome : t.handles.lookup h = some ⟨i, rel, pos, access⟩ := ho
    rw [hsome]
    dsimp only [placeSize]
    split_ifs
    · rfl
    · unfold onFs
      cases t.overlays[i]? with
      | none => rfl
      | some m =>
        dsimp only [bind_some]
        cases (B.stat m.fs rel).1 with
        | none => rfl
        | some a => rfl
    · rfl

theorem serves_of_opened (ho : t.Opened h q pos access)
    (hfile : ∀ key, q = .root key → (t.root.file key).isSome) : t.Serves B h q pos access :=
  ⟨ho, hfile, readHandle_of_opened ho, writeHandle_of_opened ho, seekHandle_of_opened ho⟩

/-! ## What an operation leaves of the handles -/

/-- From `t` to `t'` the mounts and the files of the root stay, and so does every open handle but
the one that is gone. -/
structure Leaves (gone : Option ℕ) (t t' : MountTable σ) : Prop where
  points : t'.points = t.points
  files : ∀ key, (t.root.file key).isSome → (t'.root.file key).isSome
  opened : ∀ h q pos access, some h ≠ gone → t.Opened h q pos access →
    ∃ pos', t'.Opened h q pos' access

/-- From `t` to `t'` only the mounted file systems and the record of paths changed. -/
structure Untouched (t t' : MountTable σ) : Prop where
  points : t'.points = t.points
  handles : t'.handles = t.handles
  nextHandle : t'.nextHandle = t.nextHandle
  root : t'.root = t.root

protected theorem Leaves.trans {gone : Option ℕ} (h1 : Leaves gone t t') (h2 : Leaves gone t' t'') :
    Leaves gone t t'' := by
  refine ⟨h2.points.trans h1.points, fun key hkey => h2.files key (h1.files key hkey), ?_⟩
  intro h q pos access hne ho
  obtain ⟨pos1, ho1⟩ := h1.opened h q pos access hne ho
  exact h2.opened h q pos1 access hne ho1

protected theorem Untouched.refl : Untouched t t := ⟨rfl, rfl, rfl, rfl⟩

protected theorem Untouched.trans (h1 : Untouched t t') (h2 : Untouched t' t'') : Untouched t t'' :=
  ⟨h2.points.trans h1.points, h2.handles.trans h1.handles, h2.nextHandle.trans h1.nextHandle,
    h2.root.trans h1.root⟩

/-- An open handle is known by the entries for it. -/
theorem Opened.of_lookup (ho : t.Opened h q pos access)
    (hhandles : t'.handles.lookup h = t.handles.lookup h)
    (hroot : t'.root.openFiles.lookup h = t.root.openFiles.lookup h) :
    t'.Opened h q pos access := by
  cases q with
  | root key => exact ⟨hhandles.trans ho.1, hroot.trans ho.2⟩
  | overlay i rel => exact hhandles.trans ho

theorem Untouched.leaves (hu : Untouched t t') : Leaves none t t' := by
  refine ⟨hu.points, ?_, ?_⟩
  · intro key hkey
    rwa [hu.root]
  intro h q pos access _ ho
  refine ⟨pos, ho.of_lookup ?_ ?_⟩
  · rw [hu.handles]
  · rw [hu.root]

/-- A path leads where it led, since the mount points stay. -/
theorem Leaves.route {gone : Option ℕ} (hl : Leaves gone t t') (abs : Text) :
    t'.route lower abs = t.route lower abs := by
  unfold MountTable.route resolve
  rw [hl.points]

/-- A handle that is not gone serves as before. -/
theorem Leaves.serves {gone : Option ℕ} (hl : Leaves gone t t') (hne : some h ≠ gone)
    (hs : t.Serves B h q pos access) : ∃ pos', t'.Serves B h q pos' access := by
  obtain ⟨pos', ho⟩ := hl.opened h q pos access hne hs.opened
  exact ⟨pos', serves_of_opened ho fun key hkey => hl.files key (hs.file key hkey)⟩

/-! ### Looking -/

theorem untouched_onFs {α : Type} (i : ℕ) (absent : α) (f : σ → α × σ) :
    Untouched t (t.onFs i absent f).2 :=
  ⟨points_onFs i absent f, handles_onFs, nextHandle_onFs, root_onFs⟩

theorem untouched_record (abs : Text) : Untouched t (t.record abs) := ⟨rfl, rfl, rfl, rfl⟩

theorem untouched_onPath {α : Type} (abs : Text) (absent : α) (f : Text → σ → α × σ)
    {onRoot : MountTable σ → α × MountTable σ} (hroot : ∀ t, Untouched t (onRoot t).2) :
    Untouched t (t.onPath abs absent f onRoot).2 := by
  unfold onPath
  have hrecord : Untouched t (t.record abs) := untouched_record abs
  split
  · exact hrecord.trans (untouched_onFs _ _ _)
  · exact hrecord.trans (hroot _)

theorem untouched_statPath (abs : Text) : Untouched t (t.statPath lower B abs).2 :=
  untouched_onPath abs _ _ fun _ => .refl

theorem untouched_readlinkPath (abs : Text) : Untouched t (t.readlinkPath B abs).2 :=
  untouched_onPath abs _ _ fun _ => .refl

/-- Following links touches no handle. -/
theorem untouched_followLinks (n : ℕ) (p : Text) : Untouched t (followLinks lower B n p t).2 := by
  induction n generalizing p t with
  | zero => exact .refl
  | succ n ih =>
    unfold followLinks
    have hstat : Untouched t (t.statPath lower B p).2 := untouched_statPath p
    dsimp only
    split
    · have hlink := hstat.trans (untouched_readlinkPath (B := B) p)
      split
      · exact hlink.trans (ih _)
      · exact hlink
    · exact hstat

/-! ### Opening and closing -/

/-- The next handles of the root and of the mounts are not in use. -/
def FreshHandles (t : MountTable σ) : Prop :=
  t.owns ((VirtualFs.handleBase + t.root.nextHandle) % 2 ^ 32) = false ∧
    t.owns ((overlayHandleBase + t.nextHandle) % 2 ^ 32) = false

theorem Untouched.freshHandles (hu : Untouched t t') (hf : t.FreshHandles) : t'.FreshHandles := by
  unfold FreshHandles owns
  rw [hu.handles, hu.root, hu.nextHandle]
  exact hf

theorem owns_of_opened (ho : t.Opened h q pos access) : t.owns h = true := by
  unfold owns VirtualFs.owns
  cases q with
  | root key => rw [ho.2, isSome_some, Bool.or_true]
  | overlay i rel =>
    have hsome : t.handles.lookup h = some ⟨i, rel, pos, access⟩ := ho
    rw [hsome, isSome_some, Bool.true_or]

theorem Opened.ne {n : ℕ} (ho : t.Opened h q pos access) (hn : t.owns n = false) : h ≠ n := by
  rintro rfl
  rw [owns_of_opened ho] at hn
  cases hn

theorem lookup_of_not_owns (hn : t.owns h = false) : t.handles.lookup h = none := by
  unfold owns at hn
  rw [Bool.or_eq_false_iff] at hn
  exact isSome_eq_false_iff.1 hn.1 |> isNone_iff_eq_none.1

/-- A handle of a mount. -/
theorem addHandle_serves (hf : t.FreshHandles) (i : ℕ) (rel : Text) (access : FileAccess) :
    Leaves none t (t.addHandle i rel access).2 ∧
      ∀ h, (t.addHandle i rel access).1 = some h →
        (t.addHandle i rel access).2.Serves B h (.overlay i rel) 0 access := by
  refine ⟨⟨rfl, fun _ hkey => hkey, ?_⟩, ?_⟩
  · intro h q pos access' _ ho
    exact ⟨pos, ho.of_lookup (lookup_insert_ne (ho.ne hf.2)) rfl⟩
  rintro h ⟨⟩
  refine serves_of_opened (lookup_insert _) fun key hkey => ?_
  cases hkey

/-- A handle of the root. -/
theorem open_root_serves (hf : t.FreshHandles) {p : Text} (hres : t.resolve p = none)
    (access : FileAccess) :
    Leaves none t (t.open lower B p access).2 ∧
      ∀ h, (t.open lower B p access).1 = some h →
        (t.open lower B p access).2.Serves B h (.root (normalizePath lower p)) 0 access := by
  unfold MountTable.open
  rw [hres]
  by_cases hopens : (t.root.file (normalizePath lower p)).isSome ∨ access.allowsWrite
  · have hfile : ∀ key, (t.root.open lower p access).2.file key = _ :=
      file_open p access
    obtain ⟨files, hopen⟩ := open_eq hopens
    rw [hopen] at hfile ⊢
    refine ⟨⟨rfl, ?_, ?_⟩, ?_⟩
    · intro key hkey
      rw [hfile]
      split
      · rfl
      · exact hkey
    · intro h q pos access' _ ho
      exact ⟨pos, ho.of_lookup rfl (lookup_insert_ne (ho.ne hf.1))⟩
    rintro h ⟨⟩
    have hnone := lookup_of_not_owns hf.1
    refine serves_of_opened ⟨hnone, lookup_insert _⟩ ?_
    rintro key ⟨⟩
    rw [hfile]
    -- The file was there, or it was created.
    split
    · rfl
    next hnot =>
    by_contra hnone
    rw [not_isSome_iff_eq_none] at hnone
    rw [hnone] at hopens hnot
    exact hnot ⟨rfl, rfl, hopens.resolve_left (by simp)⟩
  · have hopen : t.root.open lower p access = (none, t.root) := by
      rw [not_or, not_isSome_iff_eq_none] at hopens
      unfold VirtualFs.open
      rw [if_pos ⟨by rw [hopens.1]; rfl, hopens.2⟩]
    rw [hopen]
    exact ⟨(untouched_record p).leaves, fun h hh => nomatch hh⟩

/-- To open a file leaves the open handles, and its handle serves the file. -/
theorem open_serves (hf : t.FreshHandles) (p : Text) (access : FileAccess) :
    Leaves none t (t.open lower B p access).2 ∧
      ∀ h, (t.open lower B p access).1 = some h →
        (t.open lower B p access).2.Serves B h (t.route lower p) 0 access := by
  unfold route
  cases hres : t.resolve p with
  | none => exact open_root_serves hf hres access
  | some r =>
    obtain ⟨i, rel⟩ := r
    unfold MountTable.open
    rw [hres]
    dsimp only
    have hstat : Untouched t ((t.record p).onFs i none fun fs => B.stat fs rel).2 :=
      (untouched_record p).trans (untouched_onFs _ _ _)
    generalize (t.record p).onFs i none (fun fs => B.stat fs rel) = r at hstat ⊢
    obtain ⟨attrs, t1⟩ := r
    have hf1 := hstat.freshHandles hf
    split
    · obtain ⟨hleaves, hserves⟩ := addHandle_serves (B := B) hf1 i rel access
      exact ⟨hstat.leaves.trans hleaves, hserves⟩
    split
    · exact ⟨hstat.leaves, fun h hh => nomatch hh⟩
    have hcreate : Untouched t1 (t1.onFs i (.error .other) fun fs => B.create fs rel 0o644).2 :=
      untouched_onFs _ _ _
    generalize t1.onFs i (.error .other) (fun fs => B.create fs rel 0o644) = r at hcreate ⊢
    obtain ⟨created, t2⟩ := r
    have hall := hstat.trans hcreate
    cases created with
    | error e => exact ⟨hall.leaves, fun h hh => nomatch hh⟩
    | ok u =>
      obtain ⟨hleaves, hserves⟩ := addHandle_serves (B := B) (hall.freshHandles hf) i rel access
      exact ⟨hall.leaves.trans hleaves, hserves⟩

theorem leaves_writePath (path : Text) (bytes : Bytes) :
    Leaves none t (t.writePath lower path bytes) := by
  refine ⟨rfl, ?_, fun h q pos access _ ho => ⟨pos, ho.of_lookup rfl rfl⟩⟩
  intro key hkey
  show ((t.root.writePath lower path bytes).file key).isSome
  rw [file_writePath]
  split
  · rfl
  · exact hkey

theorem leaves_close (h : ℕ) : Leaves (some h) t (t.close h).2 := by
  unfold close
  split
  · refine ⟨rfl, fun _ hkey => hkey, ?_⟩
    intro h' q pos access hne ho
    exact ⟨pos, ho.of_lookup (lookup_erase_ne (mt (congrArg some) hne)) rfl⟩
  refine ⟨rfl, fun _ hkey => hkey, ?_⟩
  intro h' q pos access hne ho
  exact ⟨pos, ho.of_lookup rfl (lookup_erase_ne (mt (congrArg some) hne))⟩

/-- A handle that is closed is not open on its file any more. -/
theorem not_opened_close (ho : t.Opened h q pos access) {pos' : ℕ} {access' : FileAccess} :
    ¬ (t.close h).2.Opened h q pos' access' := by
  unfold close
  cases q with
  | root key =>
    rw [ho.1]
    rintro ⟨-, hopen⟩
    have hsome : (t.root.openFiles.erase h).lookup h = _ := hopen
    rw [lookup_erase] at hsome
    cases hsome
  | overlay i rel =>
    have hsome : t.handles.lookup h = some ⟨i, rel, pos, access⟩ := ho
    rw [hsome]
    intro hopen
    have hsome : (t.handles.erase h).lookup h = _ := hopen
    rw [lookup_erase] at hsome
    cases hsome

/-! ### Using a handle -/

/-- A handle of a mount moves to another position. -/
theorem leaves_move {hd : OverlayHandle} (hlookup : t.handles.lookup h = some hd) (pos : ℕ) :
    Leaves none t { t with handles := t.handles.insert h { hd with pos } } := by
  refine ⟨rfl, fun _ hkey => hkey, ?_⟩
  intro h' q pos' access _ ho
  by_cases heq : h' = h
  · subst heq
    cases q with
    | root key =>
      rw [ho.1] at hlookup
      cases hlookup
    | overlay i rel =>
      have hsome : t.handles.lookup h' = some ⟨i, rel, pos', access⟩ := ho
      rw [hsome] at hlookup
      cases hlookup
      exact ⟨pos, lookup_insert _⟩
  · exact ⟨pos', ho.of_lookup (lookup_insert_ne heq) rfl⟩

/-- A handle of a mount is used through its file system, and moves. -/
theorem Untouched.leaves_move {hd : OverlayHandle} (hu : Untouched t t')
    (hlookup : t.handles.lookup h = some hd) (pos : ℕ) :
    Leaves none t { t' with handles := t'.handles.insert h { hd with pos } } := by
  rw [← hu.handles] at hlookup
  exact hu.leaves.trans (MountTable.leaves_move hlookup pos)

/-- A handle of the root moves to another position, and the file may be written. -/
theorem leaves_setPos {v : VirtualFs} {fh : FileHandle} (hnone : t.handles.lookup h = none)
    (hlookup : t.root.openFiles.lookup h = some fh) (hopen : v.openFiles = t.root.openFiles)
    (hfiles : ∀ key, (t.root.file key).isSome → (v.file key).isSome) (pos : ℕ) :
    Leaves none t { t with root := v.setPos h fh pos } := by
  refine ⟨rfl, hfiles, ?_⟩
  intro h' q pos' access _ ho
  by_cases heq : h' = h
  · subst heq
    cases q with
    | root key =>
      obtain ⟨-, hsome⟩ := ho
      rw [hsome] at hlookup
      cases hlookup
      exact ⟨pos, hnone, lookup_insert _⟩
    | overlay i rel =>
      have hsome : t.handles.lookup h' = some ⟨i, rel, pos', access⟩ := ho
      rw [hsome] at hnone
      cases hnone
  · refine ⟨pos', ho.of_lookup rfl ?_⟩
    show (v.openFiles.insert h _).lookup h' = _
    rw [lookup_insert_ne heq, hopen]

theorem leaves_root_self : Leaves none t { t with root := t.root } := Untouched.leaves .refl

/-- A read leaves every handle in place. -/
theorem leaves_readHandle (h len : ℕ) : Leaves none t (t.readHandle B h len).2 := by
  unfold readHandle
  split
  · next hnone =>
    dsimp only
    unfold VirtualFs.readHandle
    split
    · exact leaves_root_self
    next fh hfh =>
    split
    · exact leaves_root_self
    split
    · exact leaves_root_self
    dsimp only
    split
    · exact leaves_root_self
    · exact leaves_setPos hnone hfh rfl (fun _ hkey => hkey) _
  · next hd hhd =>
    split
    · exact Untouched.leaves .refl
    dsimp only
    split
    · exact (untouched_onFs _ _ _).leaves
    · exact (untouched_onFs _ _ _).leaves_move hhd _

/-- A write leaves every handle in place. -/
theorem leaves_writeHandle (h : ℕ) (data : Bytes) : Leaves none t (t.writeHandle B h data).2 := by
  unfold writeHandle
  split
  · next hnone =>
    dsimp only
    unfold VirtualFs.writeHandle
    split
    · exact leaves_root_self
    next fh hfh =>
    split
    · exact leaves_root_self
    split
    · exact leaves_root_self
    next file hfile =>
    refine leaves_setPos (v := { t.root with files := t.root.files.insert fh.path _ })
      hnone hfh rfl (fun key hkey => ?_) _
    show ((t.root.files.insert fh.path _).lookup key).isSome
    by_cases heq : key = fh.path
    · rw [heq, lookup_insert]
      rfl
    · rw [lookup_insert_ne heq]
      exact hkey
  · next hd hhd =>
    split
    · exact Untouched.leaves .refl
    dsimp only
    split
    · exact (untouched_onFs _ _ _).leaves
    · exact (untouched_onFs _ _ _).leaves_move hhd _

/-- A seek leaves every handle in place. -/
theorem leaves_seekHandle (h : ℕ) (off : ℤ) (whence : ℕ) :
    Leaves none t (t.seekHandle B h off whence).2 := by
  unfold seekHandle
  split
  · next hnone =>
    dsimp only
    unfold VirtualFs.seekHandle
    split
    · exact leaves_root_self
    next fh hfh =>
    split
    · exact leaves_root_self
    · exact leaves_setPos hnone hfh rfl (fun _ hkey => hkey) _
  · next hd hhd =>
    dsimp only
    split_ifs
    · exact Untouched.refl.leaves_move hhd _
    · dsimp only
      split
      · exact (untouched_onFs _ _ _).leaves
      · exact (untouched_onFs _ _ _).leaves_move hhd _
    · exact Untouched.refl.leaves_move hhd _

end MountTable

/-! ## Descriptors -/

/-- What a descriptor shares with its copies: an open handle, or a socket. -/
inductive Shared where
  | handle (h : ℕ)
  | socket (i : ℕ)
  deriving DecidableEq, Repr

/-- What a descriptor shares. -/
def Fd.shared : Fd → Option Shared
  | .vfs h _ => some (.handle h)
  | .socket i => some (.socket i)
  | _ => none

/-- The handle of a shared file. -/
def Shared.handle? : Shared → Option ℕ
  | .handle h => some h
  | .socket _ => none

/-- The file or the socket of a descriptor can be used. -/
def Fd.Usable {σ : Type} (lower : Char → Text) (B : Backend σ) (t : MountTable σ)
    (sockets : List SocketState) : Fd → Prop
  | .vfs h path => ∃ pos access, t.Serves B h (t.route lower path) pos access
  | .socket i => ∃ st, sockets[i]? = some st ∧ st ≠ .closed
  | _ => True

/-- From one state to another, the open handles and sockets stay so, but the one that is gone. -/
structure Spares {σ : Type} (gone : Option Shared) (t t' : MountTable σ)
    (sockets sockets' : List SocketState) : Prop where
  table : MountTable.Leaves (gone.bind Shared.handle?) t t'
  sockets : ∀ i st, some (.socket i) ≠ gone → sockets[i]? = some st → st ≠ .closed →
    ∃ st', sockets'[i]? = some st' ∧ st' ≠ .closed

namespace Spares

variable {σ : Type} {lower : Char → Text} {B : Backend σ} {t t' : MountTable σ}
  {sockets sockets' : List SocketState} {gone : Option Shared}

/-- A change of the table alone. -/
theorem of_leaves (h : MountTable.Leaves none t t') : Spares none t t' sockets sockets :=
  ⟨h, fun _ st _ hst hopen => ⟨st, hst, hopen⟩⟩

protected theorem refl : Spares none t t sockets sockets :=
  of_leaves (MountTable.Untouched.leaves .refl)

/-- A descriptor that does not share what is gone has another handle. -/
theorem handle_ne {v : Fd} {h : ℕ} {path : Text} (hv : v = .vfs h path)
    (hne : v.shared = none ∨ v.shared ≠ gone) :
    some h ≠ gone.bind Shared.handle? := by
  subst hv
  intro heq
  obtain ⟨o, ho, hh⟩ := bind_eq_some_iff.1 heq.symm
  cases o with
  | handle h' =>
    cases hh
    obtain hnone | hne := hne
    · cases hnone
    · exact hne ho.symm
  | socket i => cases hh

/-- A descriptor can still be used when what it shares is not gone. -/
theorem usable (h : Spares gone t t' sockets sockets') {v : Fd} (hv : v.Usable lower B t sockets)
    (hne : v.shared = none ∨ v.shared ≠ gone) : v.Usable lower B t' sockets' := by
  cases v with
  | vfs hd path =>
    obtain ⟨pos, access, hs⟩ := hv
    obtain ⟨pos', hs'⟩ := h.table.serves (handle_ne rfl hne) hs
    refine ⟨pos', access, ?_⟩
    rwa [h.table.route]
  | socket i =>
    obtain ⟨st, hst, hopen⟩ := hv
    obtain hnone | hne := hne
    · cases hnone
    · exact h.sockets i st hne hst hopen
  | _ => trivial

end Spares

/-- A descriptor of a handle that is closed cannot be used. -/
theorem Fd.not_usable_close {σ : Type} {lower : Char → Text} {B : Backend σ} {t : MountTable σ}
    {sockets sockets' : List SocketState} {h : ℕ} {path : Text}
    (hv : (Fd.vfs h path).Usable lower B t sockets) :
    ¬ (Fd.vfs h path).Usable lower B (t.close h).2 sockets' := by
  obtain ⟨pos, access, hserves⟩ := hv
  rintro ⟨pos', access', hserves'⟩
  rw [(MountTable.leaves_close h).route] at hserves'
  exact MountTable.not_opened_close hserves.opened hserves'.opened

namespace Kernel

open Sched (FdsBelow installFd_spec fdsBelow_erase fdsBelow_insert)

variable {σ : Type} {lower : Char → Text} {B : Backend σ} {t t' : MountTable σ} {k k' : Kernel}
  {rest : List Fd}

/-- All descriptors can be used: those of the process that runs, and the rest. -/
structure AllUsable (lower : Char → Text) (B : Backend σ) (rest : List Fd) (k : Kernel)
    (t : MountTable σ) : Prop where
  below : FdsBelow k.toProcState
  usable : ∀ v ∈ vals k.fds ++ rest, v.Usable lower B t k.sockets

/-- A call keeps all descriptors usable, and those of files with the access they had. -/
structure Passes (lower : Char → Text) (B : Backend σ) (rest : List Fd) (t : MountTable σ)
    (k' : Kernel) (t' : MountTable σ) : Prop extends AllUsable lower B rest k' t' where
  still : ∃ gone, MountTable.Leaves gone t t' ∧
    ∀ h path, Fd.vfs h path ∈ vals k'.fds ++ rest → some h ≠ gone

variable (h : AllUsable lower B rest k t)

include h

theorem AllUsable.lookup {v : Fd} (hv : k.fds.lookup fd = some v) : v.Usable lower B t k.sockets :=
  h.usable v (mem_append_left _ (mem_vals.2 ⟨fd, hv⟩))

omit h in
/-- Nothing is closed. -/
theorem AllUsable.passes (h : AllUsable lower B rest k' t')
    (hleaves : MountTable.Leaves none t t') :
    Passes lower B rest t k' t' :=
  ⟨h, none, hleaves, fun _ _ _ => by simp⟩

theorem AllUsable.same : Passes lower B rest t k t :=
  h.passes (MountTable.Untouched.leaves .refl)

/-- A change of the table and the sockets that closes nothing. -/
theorem AllUsable.spares (hstate : k'.toProcState = k.toProcState)
    (hspares : Spares none t t' k.sockets k'.sockets) : AllUsable lower B rest k' t' := by
  have hfds : k'.fds = k.fds := congrArg ProcState.fds hstate
  refine ⟨?_, ?_⟩
  · rw [hstate]
    exact h.below
  intro v hv
  rw [hfds] at hv
  refine hspares.usable (h.usable v hv) ?_
  cases hshared : v.shared with
  | none => exact .inl rfl
  | some o => exact .inr (by simp)

theorem AllUsable.leaves (hleaves : MountTable.Leaves none t t') : Passes lower B rest t k t' :=
  (h.spares rfl (.of_leaves hleaves)).passes hleaves

/-- A new descriptor. -/
theorem AllUsable.installFd (hn : k.nextFd < 2 ^ 31 - 1) {v : Fd}
    (hv : v.Usable lower B t k.sockets) : AllUsable lower B rest (k.installFd v).2 t := by
  obtain ⟨hbelow, hvals, -⟩ := installFd_spec h.below hn v
  refine ⟨hbelow, fun w hw => ?_⟩
  rcases mem_cons.1 ((hvals.append_right rest).subset hw) with rfl | hw
  · exact hv
  · exact h.usable w hw

theorem AllUsable.pipeRef (v : Fd) (delta : ℤ) : AllUsable lower B rest (k.pipeRef v delta) t := by
  refine h.spares (toProcState_pipeRef k v delta) ?_
  rw [sockets_pipeRef]
  exact .refl

/-! ### The calls -/

theorem passes_sysDup (hn : k.nextFd < 2 ^ 31 - 1) (oldfd : ℤ) :
    Passes lower B rest t (k.sysDup oldfd).2 t := by
  unfold sysDup
  split
  · next v hv => exact ((h.installFd hn (h.lookup hv)).pipeRef v 1).same
  · exact h.same

theorem passes_sysFcntl (hn : k.nextFd < 2 ^ 31 - 1) (fd : ℤ)
    (cmd : ℕ) : Passes lower B rest t (k.sysFcntl fd cmd).2 t := by
  unfold sysFcntl
  split
  · exact h.same
  split
  · exact passes_sysDup h hn fd
  · exact h.same

theorem passes_sysPipe (hn : k.nextFd < 2 ^ 31 - 2)
    (writable : Bool) : Passes lower B rest t (k.sysPipe writable).2 t := by
  have h₀ : AllUsable lower B rest { k with pipes := k.pipes ++ [⟨[], 1, 1⟩] } t :=
    ⟨h.below, h.usable⟩
  have hn₀ : k.nextFd < 2 ^ 31 - 1 := by omega
  have h₁ := h₀.installFd hn₀ (v := .pipeRead k.pipes.length) trivial
  obtain ⟨-, -, hnext⟩ := installFd_spec h₀.below hn₀ (.pipeRead k.pipes.length)
  have h₂ := h₁.installFd (by rw [hnext]; show k.nextFd + 1 < _; omega)
    (v := .pipeWrite k.pipes.length) trivial
  exact h₂.same

/-- `socket` spares every descriptor. -/
theorem passes_sysSocket (hn : k.nextFd < 2 ^ 31 - 1) (domain : ℤ)
    (ty : ℕ) : Passes lower B rest t (k.sysSocket domain ty).2 t := by
  unfold sysSocket
  split
  · exact h.same
  split
  · exact h.same
  have hspares : Spares none t t k.sockets (k.sockets ++ [.pending (ty % 256)]) := by
    refine ⟨MountTable.Untouched.leaves .refl, fun i st _ hst hopen => ⟨st, ?_, hopen⟩⟩
    rwa [List.getElem?_append_left (List.getElem?_eq_some_iff.1 hst).1]
  have h₀ : AllUsable lower B rest { k with sockets := k.sockets ++ [.pending (ty % 256)] } t :=
    h.spares rfl hspares
  refine (h₀.installFd hn ?_).same
  exact ⟨.pending (ty % 256), List.getElem?_concat_length, by simp⟩

omit h in
theorem untouched_openPath (p : Text) (flags : ℕ) (t : MountTable σ) :
    MountTable.Untouched t (openPath lower B p flags t).2 := by
  unfold openPath
  split
  · exact .refl
  · exact MountTable.untouched_followLinks _ _

omit h in
theorem untouched_opensDir (p : Text) (flags : ℕ) (t : MountTable σ) :
    MountTable.Untouched t (opensDir lower B p flags t).2 := by
  unfold opensDir
  split
  · exact .refl
  · exact MountTable.untouched_statPath p

/-- Opening a file keeps every descriptor usable. -/
theorem allUsable_openFile (hn : k.nextFd < 2 ^ 31 - 1)
    (hf : t.FreshHandles) (p : Text) (flags : ℕ) :
    AllUsable lower B rest (openFile lower B k p flags t).2.1 (openFile lower B k p flags t).2.2 ∧
      MountTable.Leaves none t (openFile lower B k p flags t).2.2 := by
  have hcreate : MountTable.Leaves none t
      (if hasFlag flags oCREAT then t.writePath lower p [] else t) ∧
      (if hasFlag flags oCREAT then t.writePath lower p [] else t).FreshHandles := by
    split
    · exact ⟨MountTable.leaves_writePath p [], hf⟩
    · exact ⟨MountTable.Untouched.leaves .refl, hf⟩
  unfold openFile
  dsimp only
  generalize (if hasFlag flags oCREAT then t.writePath lower p [] else t) = t₁ at hcreate ⊢
  obtain ⟨hleaves, hf₁⟩ := hcreate
  obtain ⟨hopen, hserves⟩ :
      MountTable.Leaves none t₁ (t₁.open lower B p (accessOf flags)).2 ∧ _ :=
    MountTable.open_serves hf₁ p (accessOf flags)
  have hroute : MountTable.route lower _ p = t₁.route lower p := hopen.route p
  generalize t₁.open lower B p (accessOf flags) = r at hopen hserves hroute ⊢
  obtain ⟨handle, t₂⟩ := r
  have hall := hleaves.trans hopen
  have h₂ : AllUsable lower B rest k t₂ := h.spares rfl (.of_leaves hall)
  cases handle with
  | none => exact ⟨h₂, hall⟩
  | some hd =>
    refine ⟨h₂.installFd hn ?_, hall⟩
    refine ⟨0, accessOf flags, ?_⟩
    rw [hroute]
    exact hserves hd rfl

/-- `openat` spares every descriptor. -/
theorem passes_sysOpenat (hn : k.nextFd < 2 ^ 31 - 1)
    (hf : t.FreshHandles) (dirfd : ℤ) (path : Option Text) (flags : ℕ) :
    Passes lower B rest t (k.sysOpenat lower B dirfd path flags t).2.1
      (k.sysOpenat lower B dirfd path flags t).2.2 := by
  unfold sysOpenat
  split
  · exact h.same
  next p _ =>
  have hpath : MountTable.Untouched t (openPath lower B p flags t).2 :=
    untouched_openPath p flags t
  generalize openPath lower B p flags t = r at hpath ⊢
  obtain ⟨p₁, t₁⟩ := r
  dsimp only at hpath ⊢
  have hdir : MountTable.Untouched t₁ (opensDir lower B p₁ flags t₁).2 :=
    untouched_opensDir p₁ flags t₁
  generalize opensDir lower B p₁ flags t₁ = r at hdir ⊢
  obtain ⟨isDir, t₂⟩ := r
  have hall := hpath.trans hdir
  have h₂ : AllUsable lower B rest k t₂ := h.spares rfl (.of_leaves hall.leaves)
  split
  · exact (h₂.installFd hn (v := .dir p₁ 0) trivial).passes hall.leaves
  · obtain ⟨hfile, hleaves⟩ := allUsable_openFile h₂ hn (hall.freshHandles hf) p₁ flags
    exact hfile.passes (hall.leaves.trans hleaves)

omit h in
/-- What is left when a descriptor is taken out was there before. -/
theorem mem_of_mem_erase {w : Fd} (hw : w ∈ vals (k.fds.erase fd) ++ rest) :
    w ∈ vals k.fds ++ rest := by
  rcases mem_append.1 hw with hw | hw
  · obtain ⟨fd', hfd'⟩ := mem_vals.1 hw
    exact mem_append_left _ (mem_vals.2 ⟨fd', (lookup_erase_eq_some.1 hfd').2⟩)
  · exact mem_append_right _ hw

/-- A descriptor is taken out, and what it shares may be closed when no other one shares it. -/
theorem AllUsable.erase (gone : Option Shared)
    (hstate : k'.toProcState = { k.toProcState with fds := k.fds.erase fd })
    (hspares : Spares gone t t' k.sockets k'.sockets)
    (hlast : ∀ w ∈ vals (k.fds.erase fd) ++ rest, w.shared = none ∨ w.shared ≠ gone) :
    Passes lower B rest t k' t' := by
  have hfds : k'.fds = k.fds.erase fd := congrArg ProcState.fds hstate
  refine ⟨⟨?_, ?_⟩, _, hspares.table, ?_⟩
  · rw [hstate]
    exact fdsBelow_erase h.below fd
  · intro w hw
    rw [hfds] at hw
    exact hspares.usable (h.usable w (mem_of_mem_erase hw)) (hlast w hw)
  intro hd path hmem
  rw [hfds] at hmem
  exact Spares.handle_ne rfl (hlast _ hmem)

/-- No other descriptor shares what the descriptor `fd` shares. -/
def LastUse (k : Kernel) (rest : List Fd) (fd : ℤ) : Prop :=
  ∀ v, k.fds.lookup fd = some v → ∀ w ∈ vals (k.fds.erase fd) ++ rest,
    w.shared = none ∨ w.shared ≠ v.shared

omit h in
theorem spares_close (h : ℕ) (sockets : List SocketState) :
    Spares (some (.handle h)) t (t.close h).2 sockets sockets :=
  ⟨leaves_close h, fun _ st _ hst hopen => ⟨st, hst, hopen⟩⟩

/-- `close` spares the others if it closes the last of its handle. -/
theorem passes_sysClose (hlast : k.LastUse rest fd) :
    Passes lower B rest t (k.sysClose fd t).2.1 (k.sysClose fd t).2.2 := by
  unfold sysClose
  split
  · next hd path hv => exact h.erase (some (.handle hd)) rfl (spares_close hd _) (hlast _ hv)
  · next i hv =>
    refine h.erase (some (.socket i)) rfl ?_ (hlast _ hv)
    refine ⟨MountTable.Untouched.leaves .refl, fun j st hne hst hopen => ⟨st, ?_, hopen⟩⟩
    have hij : i ≠ j := fun heq => hne (by rw [heq])
    show (k.sockets.set i .closed)[j]? = some st
    rw [List.getElem?_set_ne hij, hst]
  · next v hfile hsocket hv =>
    -- What is left shares nothing.
    have hnone : v.shared = none := by
      cases v with
      | vfs hd path => exact absurd rfl (hfile hd path)
      | socket i => exact absurd rfl (hsocket i)
      | _ => rfl
    refine h.erase none (toProcState_pipeRef _ _ _) ?_ (hnone ▸ hlast v hv)
    rw [sockets_pipeRef]
    exact .refl
  · exact h.same

/-- Dropping a descriptor spares the others if it is the last of its handle. -/
theorem passes_dropFd
    (hlast : ∀ hd path, k.fds.lookup fd = some (.vfs hd path) → k.LastUse rest fd) :
    Passes lower B rest t (k.dropFd fd t).1 (k.dropFd fd t).2 := by
  have hnone : ∀ w ∈ vals (k.fds.erase fd) ++ rest, w.shared = none ∨ w.shared ≠ none :=
    fun w _ => em _
  unfold dropFd
  split
  · next hd path hv =>
    exact h.erase (some (.handle hd)) rfl (spares_close hd _) (hlast hd path hv _ hv)
  · next v _ hv =>
    refine h.erase none (toProcState_pipeRef _ _ _) ?_ hnone
    rw [sockets_pipeRef]
    exact .refl
  · next hv => exact h.erase none rfl .refl hnone

/-- `dup2` spares the others if its target is the last of its handle. -/
theorem passes_sysDup2 {oldfd newfd : ℤ} (hn : newfd < 2 ^ 31 - 1)
    (hlast : (k.fds.lookup oldfd).isSome → oldfd ≠ newfd →
      ∀ hd path, k.fds.lookup newfd = some (.vfs hd path) → k.LastUse rest newfd) :
    Passes lower B rest t (k.sysDup2 oldfd newfd t).2.1 (k.sysDup2 oldfd newfd t).2.2 := by
  unfold sysDup2
  split
  · exact h.same
  next v hv =>
  split
  · exact h.same
  next hne =>
  have hdrop := toProcState_dropFd k newfd t
  obtain ⟨h1, gone, hleaves, hgone⟩ := passes_dropFd h (hlast (by rw [hv]; rfl) hne)
  dsimp only
  generalize k.dropFd newfd t = r at hdrop h1 hleaves hgone ⊢
  obtain ⟨k1, t1⟩ := r
  -- The descriptor that is copied is not the one that was dropped.
  have hold : v ∈ vals k1.fds := by
    refine mem_vals.2 ⟨oldfd, ?_⟩
    rw [hdrop]
    show (k.fds.erase newfd).lookup oldfd = some v
    rw [lookup_erase_ne hne, hv]
  have hstate := toProcState_pipeRef { k1 with fds := k1.fds.insert newfd v } v 1
  have hsockets : ({ k1 with fds := k1.fds.insert newfd v }.pipeRef v 1).sockets = k1.sockets :=
    sockets_pipeRef _ _ _
  generalize { k1 with fds := k1.fds.insert newfd v }.pipeRef v 1 = k2 at hstate hsockets ⊢
  have hfds2 : k2.fds = k1.fds.insert newfd v := congrArg ProcState.fds hstate
  have hsub : ∀ w ∈ vals k2.fds ++ rest, w ∈ vals k1.fds ++ rest := by
    intro w hw
    rw [hfds2] at hw
    rcases mem_append.1 hw with hw | hw
    · refine mem_append_left _ ?_
      obtain ⟨fd, hfd⟩ := mem_vals.1 hw
      obtain ⟨-, rfl⟩ | ⟨-, hfd⟩ := lookup_insert_eq_some.1 hfd
      · exact hold
      · exact mem_vals.2 ⟨fd, hfd⟩
    · exact mem_append_right _ hw
  refine ⟨⟨?_, ?_⟩, gone, hleaves, fun hd path hmem => hgone hd path (hsub _ hmem)⟩
  · rw [hstate]
    exact fdsBelow_insert h1.below hn v
  intro w hw
  show w.Usable lower B t1 k2.sockets
  rw [hsockets]
  exact h1.usable w (hsub w hw)

/-! ### What a close must ask -/

/-- When the handle of a descriptor is closed and all others can be used, it was its last use. -/
theorem lastUse_of_close {hd : ℕ} {path : Text} {sockets : List SocketState}
    (hv : k.fds.lookup fd = some (.vfs hd path))
    (hafter : ∀ w ∈ vals (k.fds.erase fd) ++ rest, w.Usable lower B (t.close hd).2 sockets) :
    k.LastUse rest fd := by
  intro v hv' w hw
  cases hv.symm.trans hv'
  cases w with
  | vfs hd' path' =>
    refine .inr fun heq => ?_
    cases heq
    exact Fd.not_usable_close (h.usable _ (mem_of_mem_erase hw)) (hafter _ hw)
  | socket i => exact .inr (by simp [Fd.shared])
  | _ => exact .inl rfl

/-- A close that leaves all descriptors usable is the last use. -/
theorem lastUse_of_sysClose
    (hafter : ∀ w ∈ vals (k.sysClose fd t).2.1.fds ++ rest,
      w.Usable lower B (k.sysClose fd t).2.2 (k.sysClose fd t).2.1.sockets) :
    k.LastUse rest fd := by
  intro v hv
  unfold sysClose at hafter
  rw [hv] at hafter
  cases v with
  | vfs hd path => exact lastUse_of_close h hv hafter _ hv
  | socket i =>
    obtain ⟨st, hst, -⟩ := h.lookup hv
    intro w hw
    cases w with
    | socket j =>
      refine .inr fun heq => ?_
      cases heq
      obtain ⟨st', hst', hopen⟩ := hafter _ hw
      have hclosed : (k.sockets.set i .closed)[i]? = some .closed :=
        List.getElem?_set_self (List.getElem?_eq_some_iff.1 hst).1
      exact hopen (Option.some.inj (hst'.symm.trans hclosed))
    | vfs hd path => exact .inr (by simp [Fd.shared])
    | _ => exact .inl rfl
  | _ => exact fun w _ => em _

/-- So is a `dup2` over the descriptor of a file. -/
theorem lastUse_of_sysDup2 {oldfd newfd : ℤ} {hd : ℕ} {path : Text}
    (hold : (k.fds.lookup oldfd).isSome) (hne : oldfd ≠ newfd)
    (hv : k.fds.lookup newfd = some (.vfs hd path))
    (hafter : ∀ w ∈ vals (k.sysDup2 oldfd newfd t).2.1.fds ++ rest,
      w.Usable lower B (k.sysDup2 oldfd newfd t).2.2 (k.sysDup2 oldfd newfd t).2.1.sockets) :
    k.LastUse rest newfd := by
  obtain ⟨v, hold⟩ := isSome_iff_exists.1 hold
  unfold sysDup2 dropFd at hafter
  rw [hold, hv] at hafter
  dsimp only at hafter
  rw [if_neg hne] at hafter
  have hfds := congrArg ProcState.fds (toProcState_pipeRef
    { k with fds := (k.fds.erase newfd).insert newfd v } v 1)
  refine lastUse_of_close h hv fun w hw => hafter w ?_
  rw [hfds]
  rcases mem_append.1 hw with hw | hw
  · obtain ⟨fd, hfd⟩ := mem_vals.1 hw
    refine mem_append_left _ (mem_vals.2 ⟨fd, ?_⟩)
    show ((k.fds.erase newfd).insert newfd v).lookup fd = some w
    rw [lookup_insert_ne (lookup_erase_eq_some.1 hfd).1, hfd]
  · exact mem_append_right _ hw

/-- `read` spares every descriptor. -/
theorem passes_sysRead (fd : ℤ) (len : ℕ) (writable : Bool) (received : ℤ) :
    Passes lower B rest t (k.sysRead B fd len writable received t).2.2.1
      (k.sysRead B fd len writable received t).2.2.2 := by
  unfold sysRead
  split
  · exact h.same
  · exact h.leaves (leaves_readHandle _ _)
  · split
    · exact h.same
    split
    · exact h.same
    · exact AllUsable.same ⟨h.below, h.usable⟩
  · exact h.same
  · exact h.same
  · exact h.same

theorem passes_sysWrite (fd : ℤ) (data : Bytes) (sent : ℤ) :
    Passes lower B rest t (k.sysWrite B fd data sent t).2.1 (k.sysWrite B fd data sent t).2.2 := by
  unfold sysWrite
  split
  · exact h.same
  · exact h.same
  · exact h.leaves (leaves_writeHandle _ _)
  · exact AllUsable.same ⟨h.below, h.usable⟩
  · exact h.same
  · exact h.same

theorem passes_sysLseek (fd off : ℤ) (whence : ℕ) :
    Passes lower B rest t k (k.sysLseek B fd off whence t).2 := by
  unfold sysLseek
  split
  · exact h.leaves (leaves_seekHandle _ _ _)
  · exact h.same

end Kernel

/-! ## Runs -/

namespace Sched

open Kernel

variable {σ : Type} {lower : Char → Text} {B : Backend σ} {s s' : Sched σ}

/-- Every descriptor of every live process can be used. -/
structure FilesUsable (lower : Char → Text) (B : Backend σ) (s : Sched σ) : Prop where
  wellFormed : s.WellFormed
  usable : ∀ v ∈ s.descriptors, v.Usable lower B s.vfs s.kernel.sockets

/-- From `s` to `s'` the handles that are still held serve the same files with the same access. -/
def StillServes (B : Backend σ) (s s' : Sched σ) : Prop :=
  ∀ h path q pos access, Fd.vfs h path ∈ s'.descriptors → s.vfs.Serves B h q pos access →
    ∃ pos', s'.vfs.Serves B h q pos' access

theorem FilesUsable.all (h : s.FilesUsable lower B) (hl : s.loaded = some s.cur) :
    AllUsable lower B s.others s.kernel s.vfs := by
  refine ⟨h.wellFormed.fds, ?_⟩
  rw [← descriptors_running hl]
  exact h.usable

/-- A call that changes the kernel and the table. -/
theorem FilesUsable.kernel (h : s.FilesUsable lower B) (hl : s.loaded = some s.cur)
    {kernel : Kernel} {vfs : MountTable σ} (hp : Passes lower B s.others s.vfs kernel vfs) :
    ({ s with kernel, vfs } : Sched σ).FilesUsable lower B ∧
      s.StillServes B { s with kernel, vfs } := by
  obtain ⟨hall, gone, hleaves, hgone⟩ := hp
  refine ⟨⟨wellFormed_kernel h.wellFormed hall.below vfs, ?_⟩, ?_⟩
  · rw [descriptors_kernel hl]
    exact hall.usable
  intro hd path q pos access hmem hserves
  rw [descriptors_kernel hl] at hmem
  exact hleaves.serves (hgone hd path hmem) hserves

/-- A change of the processes that adds no new descriptor. -/
theorem FilesUsable.processes (h : s.FilesUsable lower B) (hwf : s'.WellFormed)
    (hsub : ∀ v ∈ s'.descriptors, v ∈ s.descriptors)
    (hsockets : s'.kernel.sockets = s.kernel.sockets)
    (hvfs : s'.vfs = s.vfs) : s'.FilesUsable lower B ∧ s.StillServes B s' := by
  refine ⟨⟨hwf, ?_⟩, ?_⟩
  · rw [hsockets, hvfs]
    exact fun v hv => h.usable v (hsub v hv)
  intro hd path q pos access _ hserves
  rw [hvfs]
  exact ⟨pos, hserves⟩

theorem filesUsable_exitProc (h : s.FilesUsable lower B) (hl : s.loaded = some s.cur) (code : ℤ) :
    (s.exitProc code).FilesUsable lower B ∧ s.StillServes B (s.exitProc code) := by
  obtain ⟨hwf, hperm, hkernel, hvfs⟩ := exitProc_spec h.wellFormed hl code
  refine h.processes hwf (fun v hv => ?_) (congrArg sockets hkernel) hvfs
  rw [descriptors_running hl]
  exact mem_append_right _ (hperm.mem_iff.1 hv)

/-- Every descriptor is usable at the start. -/
theorem filesUsable_initial (k : Kernel) (brk : ℕ) (vfs : MountTable σ) :
    (initial (k.init brk) vfs).FilesUsable lower B where
  wellFormed := wellFormed_initial _ (fdsBelow_init k brk) vfs
  usable := by
    rw [descriptors_initial]
    have hstd : ∀ v ∈ vals stdFds, v = .stdin ∨ v = .stdout ∨ v = .stderr := by decide
    intro v hv
    obtain rfl | rfl | rfl := hstd v hv
    · trivial
    · trivial
    · trivial

end Sched

namespace Event

open Kernel Sched

variable {σ : Type} {lower : Char → Text} {B : Backend σ} {s s' : Sched σ}

/-- A handle or socket is closed by its last descriptor only, and a new handle gets a number not in
use. -/
def ClosesLast (e : Event) (s : Sched σ) : Prop :=
  match e with
  | .openat _ _ _ => s.vfs.FreshHandles
  | .close fd => s.kernel.LastUse s.others fd
  | .dup2 oldfd newfd => (s.kernel.fds.lookup oldfd).isSome → oldfd ≠ newfd →
      ∀ h path, s.kernel.fds.lookup newfd = some (.vfs h path) → s.kernel.LastUse s.others newfd
  | _ => True

/-- A call keeps descriptors usable if it closes no handle in use. -/
theorem filesUsable_call (h : s.FilesUsable lower B) (hl : s.loaded = some s.cur) {e : Event}
    (hrange : e.InRange s) (hlast : e.ClosesLast s) :
    (e.call lower B s).FilesUsable lower B ∧ s.StillServes B (e.call lower B s) := by
  have hall := h.all hl
  cases e with
  | round ready =>
    obtain ⟨hwf, hperm, -, hsockets, hvfs⟩ := round_spec h.wellFormed ready
    exact h.processes hwf (fun _ => hperm.mem_iff.1) hsockets hvfs
  | openat dirfd path flags =>
    exact h.kernel hl (passes_sysOpenat hall hrange hlast dirfd path flags)
  | close fd => exact h.kernel hl (passes_sysClose hall hlast)
  | dup oldfd => exact h.kernel hl (passes_sysDup hall hrange oldfd)
  | dup2 oldfd newfd => exact h.kernel hl (passes_sysDup2 hall hrange hlast)
  | fcntl fd cmd => exact h.kernel hl (passes_sysFcntl hall hrange fd cmd)
  | pipe writable => exact h.kernel hl (passes_sysPipe hall hrange writable)
  | socket domain ty => exact h.kernel hl (passes_sysSocket hall hrange domain ty)
  | read fd len writable received =>
    have hread := passes_sysRead hall fd len writable received
    dsimp only [call]
    generalize s.kernel.sysRead B fd len writable received s.vfs = r at hread ⊢
    obtain ⟨_, waits, kernel, vfs⟩ := r
    obtain ⟨hsame, hstill⟩ := h.kernel hl hread
    cases waits with
    | none => exact ⟨hsame, hstill⟩
    | some i =>
      obtain ⟨hwf, hdesc⟩ := park_spec hsame.wellFormed hl (.pipe i)
      obtain ⟨hkernel, hvfs⟩ := park_shared (s := { s with kernel, vfs }) (.pipe i)
      obtain ⟨hparked, -⟩ := hsame.processes hwf (fun v hv => hdesc ▸ hv)
        (congrArg sockets hkernel) hvfs
      refine ⟨hparked, fun hd path q pos access hmem hserves => ?_⟩
      rw [hvfs]
      exact hstill hd path q pos access (hdesc ▸ hmem) hserves
  | write fd data sent => exact h.kernel hl (passes_sysWrite hall fd data sent)
  | lseek fd off whence => exact h.kernel hl (passes_sysLseek hall fd off whence)
  | fork =>
    obtain ⟨hwf, hvfs, ⟨hkernel, hsame⟩ | ⟨hkernel, hperm⟩⟩ := doFork_spec h.wellFormed hl hrange
    · exact h.processes hwf (fun v hv => hsame ▸ hv) (congrArg sockets hkernel) hvfs
    refine h.processes hwf (fun v hv => ?_) ?_ hvfs
    · rcases mem_append.1 (hperm.mem_iff.1 hv) with hmem | hmem
      · rw [descriptors_running hl]
        exact mem_append_left _ hmem
      · exact hmem
    · exact (congrArg sockets hkernel).trans sockets_forkDupPipes
  | wait4 target wnohang =>
    obtain ⟨hwf, hperm, hkernel, hvfs⟩ := doWait4_spec h.wellFormed hl target wnohang
    exact h.processes hwf (fun _ => hperm.mem_iff.1) (congrArg sockets hkernel) hvfs
  | exit code => exact filesUsable_exitProc h hl code
  | kill sig => exact filesUsable_exitProc h hl (128 + sig)
  | other p => exact h.kernel hl (AllUsable.same ⟨hall.below, hall.usable⟩)

/-- A step keeps descriptors usable if it closes no handle in use. -/
theorem filesUsable_step (h : s.FilesUsable lower B) {e : Event} (hrange : e.InRange s)
    (hlast : e.ClosesLast s) (hstep : e.step lower B s = some s') :
    s'.FilesUsable lower B ∧ s.StillServes B s' := by
  unfold step at hstep
  split at hstep
  · cases hstep
    obtain ⟨hwf, hperm, -, hsockets, hvfs⟩ := round_spec h.wellFormed _
    exact h.processes hwf (fun _ => hperm.mem_iff.1) hsockets hvfs
  split at hstep
  · next hl =>
    cases hstep
    exact filesUsable_call h hl hrange hlast
  · cases hstep

/-- A step other than `openat` that leaves all usable closes by the last descriptor only. -/
theorem closesLast_of_step (h : s.FilesUsable lower B) {e : Event}
    (hopen : ∀ dirfd path flags, e ≠ .openat dirfd path flags) (hstep : e.step lower B s = some s')
    (hafter : ∀ v ∈ s'.descriptors, v.Usable lower B s'.vfs s'.kernel.sockets) :
    e.ClosesLast s := by
  cases e with
  | openat dirfd path flags => exact absurd rfl (hopen dirfd path flags)
  | close fd =>
    obtain ⟨hl, hcall⟩ := Option.ite_none_right_eq_some.1 hstep
    cases hcall
    dsimp only [call] at hafter
    rw [descriptors_kernel hl] at hafter
    exact lastUse_of_sysClose (h.all hl) hafter
  | dup2 oldfd newfd =>
    obtain ⟨hl, hcall⟩ := Option.ite_none_right_eq_some.1 hstep
    cases hcall
    dsimp only [call] at hafter
    rw [descriptors_kernel hl] at hafter
    intro hold hne hd path hv
    exact lastUse_of_sysDup2 (h.all hl) hold hne hv hafter
  | _ => trivial

/-- In a run in which every handle and every socket is closed by its last descriptor only, each
descriptor of a live process can be used for its file or its socket, and from one step to the next a
file is served with the same access as before. A step of such a run that opens no file keeps all
descriptors usable exactly under this condition. -/
theorem descriptors_usable (lower : Char → Text) (B : Backend σ) (k : Kernel) (brk : ℕ)
    (vfs : MountTable σ) {s : Sched σ}
    (hrun : Reaches lower B (fun e s => e.InRange s ∧ e.ClosesLast s)
      (initial (k.init brk) vfs) s) :
    (∀ v ∈ s.descriptors, v.Usable lower B s.vfs s.kernel.sockets) ∧
      ∀ (e : Event) (s' : Sched σ), e.InRange s → e.step lower B s = some s' →
        (e.ClosesLast s → s.StillServes B s') ∧
        ((∀ dirfd path flags, e ≠ .openat dirfd path flags) →
          ((∀ v ∈ s'.descriptors, v.Usable lower B s'.vfs s'.kernel.sockets) ↔
            e.ClosesLast s)) := by
  have husable : s.FilesUsable lower B := by
    refine hrun.induction (filesUsable_initial k brk vfs) fun s e s' h hok hstep => ?_
    exact (filesUsable_step h hok.1 hok.2 hstep).1
  refine ⟨husable.usable, fun e s' hrange hstep => ⟨?_, fun hopen => ⟨?_, ?_⟩⟩⟩
  · exact fun hlast => (filesUsable_step husable hrange hlast hstep).2
  · exact closesLast_of_step husable hopen hstep
  · exact fun hlast => (filesUsable_step husable hrange hlast hstep).1.usable

/-- A process opens a file and duplicates the descriptor. -/
def openTwice : List Event :=
  [.round fun _ => false, .openat Kernel.atFdcwd (some "/a".toList) 0, .dup 3]

/-- It opens the file again, with a handle of its own. -/
def openThrice : List Event := openTwice ++ [.openat Kernel.atFdcwd (some "/a".toList) 0]

/-- The third descriptor is the only one of its handle. -/
theorem closesLast_openThrice (s : Sched ProcFs.State)
    (hs : run asciiLower ProcFs.backend openThrice (initial (Kernel.fresh.init 0) ProcFs.sample) =
      some s) : (Event.close 5).ClosesLast s := by
  have hstate : (run asciiLower ProcFs.backend openThrice
      (initial (Kernel.fresh.init 0) ProcFs.sample)).map (fun s : Sched _ => (s.kernel.fds.lookup 5,
        decide (∀ w ∈ vals (s.kernel.fds.erase 5) ++ s.others,
          w.shared ≠ some (.handle 0x68000001)))) =
      some (some (.vfs 0x68000001 "/a".toList), true) := by
    decide +kernel
  rw [hs] at hstate
  obtain ⟨hlookup, hothers⟩ := Prod.mk.inj (Option.some.inj hstate)
  intro v hv w hw
  cases hlookup.symm.trans hv
  exact .inr (of_decide_eq_true hothers w hw)

/-- The third descriptor is closed, and the two others can be used. -/
theorem descriptors_usable_closed :
    ∃ s, run asciiLower ProcFs.backend (openThrice ++ [.close 5])
        (initial (Kernel.fresh.init 0) ProcFs.sample) = some s ∧
      s.kernel.fds.lookup 3 = s.kernel.fds.lookup 4 ∧ s.kernel.fds.lookup 5 = none ∧
      ∀ v ∈ s.descriptors, v.Usable asciiLower ProcFs.backend s.vfs s.kernel.sockets := by
  have hrun : Reaches asciiLower ProcFs.backend (fun e s => e.InRange s ∧ e.ClosesLast s)
      (initial (Kernel.fresh.init 0) ProcFs.sample) _ :=
    .head ⟨.round fun _ => false, ⟨trivial, trivial⟩, rfl⟩ <|
    .head ⟨.openat Kernel.atFdcwd (some "/a".toList) 0,
      ⟨(by decide : (3 : ℤ) < 2 ^ 31 - 1), rfl, rfl⟩, rfl⟩ <|
    .head ⟨.dup 3, ⟨by dsimp only [InRange]; decide +kernel, trivial⟩, rfl⟩ <|
    .head ⟨.openat Kernel.atFdcwd (some "/a".toList) 0,
      ⟨by dsimp only [InRange]; decide +kernel, by decide +kernel, by decide +kernel⟩, rfl⟩ <|
    .single ⟨.close 5, ⟨trivial, closesLast_openThrice _ rfl⟩, rfl⟩
  refine ⟨_, rfl, ?_, ?_,
    (descriptors_usable asciiLower ProcFs.backend Kernel.fresh 0 ProcFs.sample hrun).1⟩
  · decide +kernel
  · decide +kernel

/-- When one of the two descriptors is closed, the other one is open on nothing. -/
theorem not_descriptors_usable_close :
    ∃ s h, run asciiLower ProcFs.backend (openTwice ++ [.close 3])
        (initial (Kernel.fresh.init 0) ProcFs.sample) = some s ∧
      s.kernel.fds.lookup 4 = some (.vfs h "/a".toList) ∧ Fd.vfs h "/a".toList ∈ s.descriptors ∧
      (s.vfs.readHandle ProcFs.backend h 1).1 = none ∧
        (s.vfs.seekHandle ProcFs.backend h 0 0).1 = none ∧
      ¬ (Fd.vfs h "/a".toList).Usable asciiLower ProcFs.backend s.vfs s.kernel.sockets := by
  refine ⟨_, 0x68000000, rfl, ?_, ?_, ?_, ?_, ?_⟩
  · decide +kernel
  · decide +kernel
  · decide +kernel
  · decide +kernel
  rintro ⟨pos, access, hserves⟩
  have howns := MountTable.owns_of_opened hserves.opened
  revert howns
  decide +kernel

end Event

end Univdreams.Emulator
