import Univdreams.Emulator.VirtualFs

/-!
# The mount table

`MountTable` of `src/emulator/fsmount/mod.rs`: the in-memory file system at the root, and further
file systems mounted over it. A path is routed to the mount with the longest mount point above it,
and to the root when there is none.

A mounted file system is behind the trait `MountFs`. Here it is a `Backend`, the functions of the
trait over a type of states, since all of them take the file system by a mutable reference. What the
documentation of the trait promises about the files is `Backend.Lawful`.

Every operation on a path routes it first. The paths that were routed are recorded in `routed`,
which the source does not have: statements about routing refer to it.
-/

namespace Univdreams.Emulator

open PathText List

/-- `NodeKind`. -/
inductive NodeKind where
  | file
  | dir
  | symlink
  | charDevice
  deriving DecidableEq, Repr

/-- `Attrs`. -/
structure Attrs where
  kind : NodeKind
  size : ℕ
  mode : ℕ
  mtime : ℕ
  inode : ℕ
  deriving DecidableEq, Repr

/-- The kinds of `io::Error` that are told apart. -/
inductive IoError where
  | invalidInput
  | other
  deriving DecidableEq, Repr

/-- What an operation of a file system returns. -/
abbrev IoResult (α : Type) := Except IoError α

/-- `MountFs`: a file system over states of type `σ`. Reads return the bytes for a buffer of the
given length. -/
structure Backend (σ : Type) where
  stat : σ → Text → Option Attrs × σ
  readAt : σ → Text → (off len : ℕ) → IoResult Bytes × σ
  readdir : σ → Text → IoResult (List (Text × NodeKind)) × σ
  readOnly : σ → Bool
  writeAt : σ → Text → (off : ℕ) → Bytes → IoResult ℕ × σ
  create : σ → Text → (mode : ℕ) → IoResult Unit × σ
  mkdir : σ → Text → (mode : ℕ) → IoResult Unit × σ
  unlink : σ → Text → IoResult Unit × σ
  rmdir : σ → Text → IoResult Unit × σ
  truncate : σ → Text → (len : ℕ) → IoResult Unit × σ
  symlink : σ → (target rel : Text) → IoResult Unit × σ
  rename : σ → (oldRel newRel : Text) → IoResult Unit × σ
  hardlink : σ → (targetRel newRel : Text) → IoResult Unit × σ
  readlink : σ → Text → IoResult Text × σ

/-- `OverlayHandle`. -/
structure OverlayHandle where
  mount : ℕ
  path : Text
  pos : ℕ
  access : FileAccess
  deriving DecidableEq, Repr

/-- `Mount`. -/
structure Mount (σ : Type) where
  point : Text
  fs : σ

/-- The number of bytes of a text. -/
def byteLength (t : Text) : ℕ := (t.map Char.utf8Size).sum

/-- The order of the mounts: longer mount points first. -/
def LongestFirst (points : List Text) : Prop :=
  points.Pairwise fun a b => byteLength b ≤ byteLength a

/-- `MountTable`. `mount` normalises the points, keeps one mount at each, and sorts them by
length. -/
structure MountTable (σ : Type) where
  root : VirtualFs
  overlays : List (Mount σ)
  handles : AList fun _ : ℕ => OverlayHandle
  nextHandle : ℕ
  /-- The paths that were routed, the last one first. -/
  routed : List Text
  normalised : ∀ p ∈ overlays.map Mount.point, ∃ cs, Components isSeparator cs ∧ p = absText cs
  longestFirst : LongestFirst (overlays.map Mount.point)

namespace MountTable

variable {σ : Type}

/-- `OVERLAY_HANDLE_BASE`. -/
def overlayHandleBase : ℕ := 0x6A000000

/-! ## Mounts -/

/-- `with_root`. -/
def withRoot (root : VirtualFs) : MountTable σ :=
  ⟨root, [], ∅, 0, [], by simp, by simp [LongestFirst]⟩

/-- Whether a mount may stand in front of another one. -/
def before (a b : Mount σ) : Bool := byteLength b.point ≤ byteLength a.point

variable {α : Type} (overlays : List (Mount σ)) (t : MountTable σ)

/-- The mounts with a new one, in their order. -/
def mounted (point : Text) (fs : σ) : List (Mount σ) :=
  (overlays.filter (fun m : Mount σ => m.point ≠ normAbs point) ++
    [(⟨normAbs point, fs⟩ : Mount σ)]).mergeSort before

theorem mem_mounted {overlays : List (Mount σ)} {point : Text} {fs : σ} {m : Mount σ}
    (h : m ∈ mounted overlays point fs) : m ∈ overlays ∨ m = ⟨normAbs point, fs⟩ := by
  unfold mounted at h
  rw [mem_mergeSort, mem_append, mem_singleton] at h
  exact h.imp_left fun h => mem_of_mem_filter h

/-- Mounting keeps the longest mount point first. -/
theorem longestFirst_mounted (point : Text) (fs : σ) :
    LongestFirst ((mounted overlays point fs).map Mount.point) := by
  have htrans : ∀ a b c : Mount σ, before a b = true → before b c = true → before a c = true := by
    intro a b c hab hbc
    simp only [before, decide_eq_true_eq] at *
    omega
  have htotal : ∀ a b : Mount σ, (before a b || before b a) = true := by
    intro a b
    simp only [before, Bool.or_eq_true, decide_eq_true_eq]
    omega
  unfold LongestFirst mounted
  rw [pairwise_map]
  exact (pairwise_mergeSort htrans htotal _).imp fun h => by simpa [before] using h

/-- `mount`. -/
def mount (point : Text) (fs : σ) : MountTable σ :=
  { t with
    overlays := mounted t.overlays point fs
    normalised := by
      intro p hp
      obtain ⟨m, hm, rfl⟩ := List.mem_map.1 hp
      obtain hm | rfl := mem_mounted hm
      · exact t.normalised _ (List.mem_map_of_mem hm)
      · exact ⟨_, components_pieces point, normAbs_eq point⟩
    longestFirst := longestFirst_mounted t.overlays point fs }

theorem map_point_modify (i : ℕ) (fs : σ) :
    (overlays.modify i fun m => { m with fs }).map Mount.point = overlays.map Mount.point := by
  refine ext_getElem? fun j => ?_
  rw [List.getElem?_map, List.getElem?_map, List.getElem?_modify]
  cases overlays[j]? with
  | none => rfl
  | some m =>
    split <;> rfl

/-- The table with another state of the file system of a mount. -/
def setFs (i : ℕ) (fs : σ) : MountTable σ :=
  { t with
    overlays := t.overlays.modify i fun m => { m with fs }
    normalised := by
      rw [map_point_modify]
      exact t.normalised
    longestFirst := by
      rw [map_point_modify]
      exact t.longestFirst }

/-- Run an operation of the file system with a number from `resolve`; another one would panic. -/
def onFs (i : ℕ) (absent : α) (f : σ → α × σ) : α × MountTable σ :=
  match t.overlays[i]? with
  | some m => ((f m.fs).1, t.setFs i (f m.fs).2)
  | none => (absent, t)

/-! ## Routing -/

/-- The mount points, in the order of the mounts. -/
def points : List Text := t.overlays.map Mount.point

/-- `resolve`: the number of the mount that a path falls under, and the path in it. -/
def resolve (abs : Text) : Option (ℕ × Text) :=
  let abs := normAbs abs
  t.points.zipIdx.findSome? fun (point, i) => (underMount point abs).map fun rel => (i, rel)

/-- Record that a path was routed. -/
def record (abs : Text) : MountTable σ := { t with routed := abs :: t.routed }

/-- The operations on a path: those of the mount that it falls under, or else of the root. -/
def onPath (abs : Text) (absent : α) (f : Text → σ → α × σ)
    (onRoot : MountTable σ → α × MountTable σ) : α × MountTable σ :=
  match t.resolve abs with
  | some (i, rel) => (t.record abs).onFs i absent (f rel)
  | none => onRoot (t.record abs)

section Operations

variable (lower : Char → Text) (B : Backend σ) (t : MountTable σ)

/-! ## Paths -/

/-- `write_path`, which does not route. -/
def writePath (path : Text) (bytes : Bytes) : MountTable σ :=
  { t with root := t.root.writePath lower path bytes }

variable (abs : Text)

/-- `stat_path`. -/
def statPath : Option Attrs × MountTable σ :=
  t.onPath abs none (fun rel fs => B.stat fs rel) fun t =>
    ((t.root.statNode lower abs).map fun (isDir, size) =>
      ⟨if isDir then .dir else .file, size, if isDir then 0o755 else 0o644, 0, 0⟩, t)

/-- `readlink_path`. -/
def readlinkPath : IoResult Text × MountTable σ :=
  t.onPath abs (.error .other) (fun rel fs => B.readlink fs rel) fun t => (.error .invalidInput, t)

/-- `mkdir_path`. -/
def mkdirPath (mode : ℕ) : IoResult Unit × MountTable σ :=
  t.onPath abs (.error .other) (fun rel fs => B.mkdir fs rel mode) fun t => (.ok (), t)

/-- `unlink_path`. -/
def unlinkPath : IoResult Unit × MountTable σ :=
  t.onPath abs (.error .other) (fun rel fs => B.unlink fs rel) fun t =>
    let (removed, root) := t.root.remove lower abs
    (if removed then .ok () else .error .other, { t with root })

/-- `rmdir_path`. -/
def rmdirPath : IoResult Unit × MountTable σ :=
  t.onPath abs (.error .other) (fun rel fs => B.rmdir fs rel) fun t => (.ok (), t)

/-- `symlink_path`. -/
def symlinkPath (target abs : Text) : IoResult Unit × MountTable σ :=
  t.onPath abs (.error .other) (fun rel fs => B.symlink fs target rel) fun t => (.error .other, t)

/-- `truncate_path`. -/
def truncatePath (len : ℕ) : IoResult Unit × MountTable σ :=
  t.onPath abs (.error .other) (fun rel fs => B.truncate fs rel len) fun t =>
    let (found, root) := t.root.truncate lower abs len
    (if found then .ok () else .error .other, { t with root })

/-- `readdir_path`. -/
def readdirPath : IoResult (List (Text × NodeKind)) × MountTable σ :=
  t.onPath abs (.error .other)
    (fun rel fs =>
      let (entries, fs) := B.readdir fs rel
      (entries.map (·.filter fun e => e.1 ≠ ['.'] ∧ e.1 ≠ ['.', '.']), fs))
    fun t => match t.root.readdir lower abs with
      | none => (.error .other, t)
      | some children =>
        let out := children.entries.map fun e => (e.1, if e.2 then NodeKind.dir else .file)
        let points := t.overlays.filterMap fun m => do
          let (dir, base) ← Text.splitAtLast ['/'] m.point
          if (if dir = [] then ['/'] else dir) = normAbs abs then some base else none
        (.ok <| points.foldl (fun out base =>
          if out.any (·.1 = base) then out else out ++ [(base, .dir)]) out, t)

/-- The operations of one file system on two paths, for `rename_path` and `hardlink_path`. -/
def onTwo (oldAbs newAbs : Text) (f : Text → Text → σ → IoResult Unit × σ) :
    IoResult Unit × MountTable σ :=
  let routed := (t.record oldAbs).record newAbs
  match t.resolve oldAbs, t.resolve newAbs with
  | some (i, oldRel), some (j, newRel) =>
    if i = j then routed.onFs i (.error .other) (f oldRel newRel) else (.error .other, routed)
  | _, _ => (.error .other, routed)

/-- `rename_path`. -/
def renamePath (oldAbs newAbs : Text) : IoResult Unit × MountTable σ :=
  t.onTwo oldAbs newAbs fun oldRel newRel fs => B.rename fs oldRel newRel

/-- `hardlink_path`. -/
def hardlinkPath (targetAbs newAbs : Text) : IoResult Unit × MountTable σ :=
  t.onTwo targetAbs newAbs fun targetRel newRel fs => B.hardlink fs targetRel newRel

/-! ## Handles -/

/-- Enter a handle for an open file of a mount. -/
def addHandle (i : ℕ) (rel : Text) (access : FileAccess) : Option ℕ × MountTable σ :=
  let handle := (overlayHandleBase + t.nextHandle) % 2 ^ 32
  (some handle, { t with
    handles := t.handles.insert handle ⟨i, rel, 0, access⟩
    nextHandle := (t.nextHandle + 1) % 2 ^ 32 })

/-- `open`. -/
def «open» (path : Text) (access : FileAccess) : Option ℕ × MountTable σ :=
  match t.resolve path with
  | none =>
    let (handle, root) := t.root.open lower path access
    (handle, { t.record path with root })
  | some (i, rel) =>
    let (attrs, t) := (t.record path).onFs i none fun fs => B.stat fs rel
    if attrs.isSome then t.addHandle i rel access
    else if ¬ access.allowsWrite ∨ (t.overlays[i]?.map fun m => B.readOnly m.fs) = some true then
      (none, t)
    else
      let (created, t) := t.onFs i (.error .other) fun fs => B.create fs rel 0o644
      match created with
      | .ok () => t.addHandle i rel access
      | .error _ => (none, t)

/-- `close`. -/
def close (handle : ℕ) : Bool × MountTable σ :=
  match t.handles.lookup handle with
  | some _ => (true, { t with handles := t.handles.erase handle })
  | none =>
    let (known, root) := t.root.close handle
    (known, { t with root })

/-- `read_handle`, with a buffer of `len` bytes. -/
def readHandle (handle len : ℕ) : Option Bytes × MountTable σ :=
  match t.handles.lookup handle with
  | none =>
    let (bytes, root) := t.root.readHandle handle len
    (bytes, { t with root })
  | some h =>
    if ¬ h.access.allowsRead then (none, t)
    else
      let (bytes, t) := t.onFs h.mount (.error .other) fun fs => B.readAt fs h.path h.pos len
      match bytes with
      | .error _ => (none, t)
      | .ok bytes => (some bytes, { t with
          handles := t.handles.insert handle { h with pos := (h.pos + bytes.length) % 2 ^ 64 } })

/-- `write_handle`. -/
def writeHandle (handle : ℕ) (data : Bytes) : Option ℕ × MountTable σ :=
  match t.handles.lookup handle with
  | none =>
    let (n, root) := t.root.writeHandle handle data
    (n, { t with root })
  | some h =>
    if ¬ h.access.allowsWrite then (none, t)
    else
      let (n, t) := t.onFs h.mount (.error .other) fun fs => B.writeAt fs h.path h.pos data
      match n with
      | .error _ => (none, t)
      | .ok n => (some n, { t with
          handles := t.handles.insert handle { h with pos := (h.pos + n) % 2 ^ 64 } })

/-- `seek_handle`. -/
def seekHandle (handle : ℕ) (off : ℤ) (whence : ℕ) : Option ℕ × MountTable σ :=
  match t.handles.lookup handle with
  | none =>
    let (pos, root) := t.root.seekHandle handle off whence
    (pos, { t with root })
  | some h =>
    let (base, t) := if whence = 1 then (some h.pos, t)
      else if whence = 2 then
        let (attrs, t) := t.onFs h.mount none fun fs => B.stat fs h.path
        (attrs.map Attrs.size, t)
      else (some 0, t)
    match base with
    | none => (none, t)
    | some base =>
      let pos := VirtualFs.seekPos base off
      (some pos, { t with handles := t.handles.insert handle { h with pos } })

/-- `owns`. -/
def owns (handle : ℕ) : Bool := (t.handles.lookup handle).isSome || t.root.owns handle

/-! ## Symbolic links -/

/-- The path that a link leads to. -/
def linkTarget (p target : Text) : Text :=
  if target.head? = some '/' then normAbs target
  else
    let dir := ((Text.splitAtLast ['/'] p).map Prod.fst).getD []
    normAbs (dir ++ '/' :: target)

/-- The loop of `resolve_symlinks`, over the links that may still be followed. -/
def followLinks : ℕ → Text → MountTable σ → Text × MountTable σ
  | 0, p, t => (p, t)
  | n + 1, p, t =>
    let (attrs, t) := t.statPath lower B p
    if attrs.map Attrs.kind = some .symlink then
      let (target, t) := t.readlinkPath B p
      match target with
      | .ok target => followLinks n (linkTarget p target) t
      | .error _ => (p, t)
    else (p, t)

/-- `resolve_symlinks`. -/
def resolveSymlinks (path : Text) : Text × MountTable σ :=
  followLinks lower B 16 (normAbs path) t

/-- The loop of `read_file` over the rounds, each of which reads up to 64 KiB. -/
def readLoop (handle : ℕ) : ℕ → Bytes → MountTable σ → Option (Bytes × MountTable σ)
  | 0, _, _ => none
  | n + 1, out, t =>
    let (bytes, t) := t.readHandle B handle 0x10000
    match bytes with
    | none => some (out, t)
    | some [] => some (out, t)
    | some bytes => readLoop handle n (out ++ bytes) t

/-- `read_file`, with at most `rounds` rounds; the outer `none` says that they are not enough. -/
def readFile (rounds : ℕ) (path : Text) : Option (Option Bytes × MountTable σ) :=
  let (p, t) := t.resolveSymlinks lower B path
  let (handle, t) := t.open lower B p .read
  match handle with
  | none => some (none, t)
  | some handle => do
    let (out, t) ← readLoop B handle rounds [] t
    return (some out, (t.close handle).2)

end Operations

end MountTable

end Univdreams.Emulator
