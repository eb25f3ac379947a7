import Univdreams.Bytes
import Univdreams.Emulator.Paths

/-!
# The in-memory file system

`VirtualFs` of `src/emulator/context.rs`: files by their normalised paths, and open handles that
refer to files by these paths. A directory is there as long as a file lies below it.

The lower case of characters, by which paths are normalised, is a parameter.
-/

namespace Univdreams.Emulator

open Text

/-- `FileAccess`. -/
inductive FileAccess where
  | read
  | write
  | readWrite
  deriving DecidableEq, Repr

/-- `allows_read`, and `access_reads` of the mount table. -/
def FileAccess.allowsRead (a : FileAccess) : Bool := a = .read || a = .readWrite

/-- `allows_write`, and `access_writes` of the mount table. -/
def FileAccess.allowsWrite (a : FileAccess) : Bool := a = .write || a = .readWrite

/-- `FileHandle`. -/
structure FileHandle where
  path : Text
  pos : ℕ
  access : FileAccess
  deriving DecidableEq, Repr

/-- `VirtualFs`. -/
structure VirtualFs where
  files : AList fun _ : Text => Bytes
  openFiles : AList fun _ : ℕ => FileHandle
  nextHandle : ℕ

namespace VirtualFs

/-- `HANDLE_BASE`. -/
def handleBase : ℕ := 0x68000000

/-- A file system with the given files and without open handles. -/
def withFiles (files : List (Text × Bytes)) : VirtualFs :=
  ⟨(files.map fun f => ⟨f.1, f.2⟩).toAList, ∅, 0⟩

variable (lower : Char → Text) (v : VirtualFs)

/-! ## Paths -/

/-- The contents of a file, by its normalised path. -/
def file (key : Text) : Option Bytes := v.files.lookup key

variable (path : Text)

/-- `write_path`. -/
def writePath (bytes : Bytes) : VirtualFs :=
  { v with files := v.files.insert (normalizePath lower path) bytes }

/-- `remove`. -/
def remove : Bool × VirtualFs :=
  let key := normalizePath lower path
  ((v.file key).isSome, { v with files := v.files.erase key })

/-- A file, cut off or filled up with zeros to the given length. -/
def resized (len : ℕ) (bytes : Bytes) : Bytes :=
  bytes.take len ++ List.replicate (len - bytes.length) 0

/-- `truncate`. -/
def truncate (len : ℕ) : Bool × VirtualFs :=
  let key := normalizePath lower path
  match v.file key with
  | some b => (true, { v with files := v.files.insert key (resized len b) })
  | none => (false, v)

/-- `stat_node`: whether there is a directory or a file, and its size. -/
def statNode : Option (Bool × ℕ) :=
  let key := normalizePath lower path
  match v.file key with
  | some bytes => some (false, bytes.length)
  | none =>
    if key = [] ∨ key = ['/'] then some (true, 0)
    else if v.files.keys.any fun k => (key ++ ['/']).isPrefixOf k then some (true, 0)
    else none

/-- `readdir`: the names of the entries of a directory, and which of them are directories. -/
def readdir : Option (AList fun _ : Text => Bool) :=
  let key := normalizePath lower path
  if (v.file key).isSome then none
  else
    let rests := v.files.keys.filterMap fun k =>
      if key = [] ∨ key = ['/'] then some (k.dropWhile (· = '/'))
      else stripPrefix? k (key ++ ['/'])
    some <| rests.foldl (fun children rest =>
      if rest = [] then children
      else match Text.splitAtFirst ['/'] rest with
        | some (seg, _) => if seg ∈ children then children else children.insert seg true
        | none => children.insert rest false) ∅

/-! ## Handles -/

/-- `open`. -/
def «open» (access : FileAccess) : Option ℕ × VirtualFs :=
  let key := normalizePath lower path
  if (v.file key).isNone ∧ ¬ access.allowsWrite then (none, v)
  else
    let files := if (v.file key).isNone then v.files.insert key [] else v.files
    let handle := (handleBase + v.nextHandle) % 2 ^ 32
    (some handle, { files
                    openFiles := v.openFiles.insert handle ⟨key, 0, access⟩
                    nextHandle := (v.nextHandle + 1) % 2 ^ 32 })

/-- `close`. -/
def close (handle : ℕ) : Bool × VirtualFs :=
  ((v.openFiles.lookup handle).isSome, { v with openFiles := v.openFiles.erase handle })

/-- Move the file pointer of a handle. -/
def setPos (handle : ℕ) (fh : FileHandle) (pos : ℕ) : VirtualFs :=
  { v with openFiles := v.openFiles.insert handle { fh with pos } }

/-- `read_handle`, with a buffer of `len` bytes. The length of a file is far below `2^64`. -/
def readHandle (handle len : ℕ) : Option Bytes × VirtualFs :=
  match v.openFiles.lookup handle with
  | none => (none, v)
  | some fh =>
    if ¬ fh.access.allowsRead then (none, v)
    else match v.file fh.path with
      | none => (none, v)
      | some file =>
        let bytes := (file.drop fh.pos).take len
        (some bytes, if file.length ≤ fh.pos then v else v.setPos handle fh (fh.pos + bytes.length))

/-- A file with the given bytes at a place, filled up with zeros in front of it. -/
def overwrite (file : Bytes) (pos : ℕ) (data : Bytes) : Bytes :=
  (resized pos file).take pos ++ data ++ file.drop (pos + data.length)

/-- `write_handle`. -/
def writeHandle (handle : ℕ) (data : Bytes) : Option ℕ × VirtualFs :=
  match v.openFiles.lookup handle with
  | none => (none, v)
  | some fh =>
    if ¬ fh.access.allowsWrite then (none, v)
    else match v.file fh.path with
      | none => (none, v)
      | some file =>
        let written := { v with files := v.files.insert fh.path (overwrite file fh.pos data) }
        (some data.length, written.setPos handle fh (fh.pos + data.length))

/-- `size`. -/
def size (handle : ℕ) : Option ℕ := do
  let fh ← v.openFiles.lookup handle
  let file ← v.file fh.path
  return file.length

/-- The position `off` bytes from `base`, in signed 64-bit words. The sum wraps, as in a build
without overflow checks. -/
def seekPos (base : ℕ) (off : ℤ) : ℕ := (Int.bmod (Int.bmod base (2 ^ 64) + off) (2 ^ 64)).toNat

/-- `seek_handle`. -/
def seekHandle (handle : ℕ) (off : ℤ) (whence : ℕ) : Option ℕ × VirtualFs :=
  match v.openFiles.lookup handle with
  | none => (none, v)
  | some fh =>
    match (if whence = 1 then some fh.pos else if whence = 2 then v.size handle else some 0) with
    | none => (none, v)
    | some base =>
      let pos := seekPos base off
      (some pos, v.setPos handle fh pos)

/-- `owns`. -/
def owns (handle : ℕ) : Bool := (v.openFiles.lookup handle).isSome

/-! ## What the operations leave of the files -/

variable {lower} {v}

theorem file_writePath (path key : Text) (bytes : Bytes) : (v.writePath lower path bytes).file key =
      if key = normalizePath lower path then some bytes else v.file key := by
  unfold writePath file
  split_ifs with h
  · rw [h, AList.lookup_insert]
  · exact AList.lookup_insert_ne h

theorem file_remove (path key : Text) : (v.remove lower path).2.file key =
      if key = normalizePath lower path then none else v.file key := by
  unfold remove file
  split_ifs with h
  · rw [h]
    exact AList.lookup_erase _ _
  · exact AList.lookup_erase_ne h

/-- Truncating resizes the file at the path and no other. -/
theorem file_truncate (path : Text) (len : ℕ) (key : Text) :
    (v.truncate lower path len).2.file key =
      if key = normalizePath lower path then (v.file key).map (resized len) else v.file key := by
  unfold truncate
  cases hb : v.file (normalizePath lower path) with
  | some b =>
    simp only [hb]
    split_ifs with h
    · rw [h, hb]
      exact AList.lookup_insert _
    · exact AList.lookup_insert_ne h
  | none =>
    simp only [hb]
    split_ifs with h
    · simp [h, hb]
    · rfl

@[simp] theorem nextHandle_truncate (path : Text) (len : ℕ) :
    (v.truncate lower path len).2.nextHandle = v.nextHandle := by
  unfold truncate
  dsimp only
  split <;> rfl

/-- To open a file can create it, empty, and changes no other one. -/
theorem file_open (path : Text) (access : FileAccess) (key : Text) :
    (v.open lower path access).2.file key =
      if key = normalizePath lower path ∧ (v.file key).isNone ∧ access.allowsWrite then some []
      else v.file key := by
  unfold VirtualFs.open
  by_cases hkey : (v.file (normalizePath lower path)).isNone
  · by_cases hwrite : access.allowsWrite
    · rw [if_neg (by simp [hwrite]), if_pos hkey]
      by_cases h : key = normalizePath lower path
      · subst h
        rw [if_pos ⟨rfl, hkey, hwrite⟩]
        exact AList.lookup_insert _
      · rw [if_neg fun h' => h h'.1]
        exact AList.lookup_insert_ne h
    · rw [if_pos ⟨hkey, hwrite⟩, if_neg fun h' => hwrite h'.2.2]
  · rw [if_neg fun h' => hkey h'.1, if_neg hkey, if_neg]
    · rfl
    · rintro ⟨rfl, hnone, -⟩
      exact hkey hnone

/-- To open a file that is there, or for writing, gives the next handle. -/
theorem open_eq {path : Text} {access : FileAccess}
    (h : (v.file (normalizePath lower path)).isSome ∨ access.allowsWrite) :
    ∃ files, v.open lower path access =
      (some ((handleBase + v.nextHandle) % 2 ^ 32),
        { files
          openFiles := v.openFiles.insert ((handleBase + v.nextHandle) % 2 ^ 32)
            ⟨normalizePath lower path, 0, access⟩
          nextHandle := (v.nextHandle + 1) % 2 ^ 32 }) := by
  unfold VirtualFs.open
  rw [if_neg]
  · exact ⟨_, rfl⟩
  rintro ⟨hnone, hwrite⟩
  obtain hsome | haccess := h
  · rw [Option.isNone_iff_eq_none.1 hnone] at hsome
    cases hsome
  · exact hwrite haccess

end VirtualFs

end Univdreams.Emulator
