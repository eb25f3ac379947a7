import Univdreams.Emulator.Reliable

/-!
# The synthetic `/proc`

`ProcFs` of `src/emulator/fsmount/procfs.rs`: a read-only file system of regular files and symbolic
links, whose directories are there as long as something lies below them. What it does not implement
is the default of the trait, an error.
-/

namespace Univdreams.Emulator

open Text

namespace ProcFs

/-- `Node`. -/
inductive Node where
  | file (bytes : Bytes)
  | symlink (target : Text)
  deriving DecidableEq, Repr

/-- What a node holds. -/
def Node.content : Node → Content
  | .file b => .file b
  | .symlink t => .symlink t

/-- `ProcFs`: the nodes, by their paths. -/
abbrev State := AList fun _ : Text => Node

variable (s : State) (rel : Text)

/-- `norm`. -/
def norm : Text :=
  let t := rel.rdropWhile (· = '/')
  if t = [] then ['/'] else if t.head? = some '/' then t else '/' :: t

/-- `set_file`. -/
def setFile (bytes : Bytes) : State := s.insert (norm rel) (.file bytes)

/-- `set_symlink`. -/
def setSymlink (rel target : Text) : State := s.insert (norm rel) (.symlink target)

/-- `dir_of`. -/
def dirOf : Bool :=
  let rel := norm rel
  rel = ['/'] || s.keys.any fun k => (rel ++ ['/']).isPrefixOf k

/-- `stat`. -/
def stat : Option Attrs :=
  let key := norm rel
  match s.lookup key with
  | some (.file b) => some ⟨.file, b.length, 0o100444, 0, 0⟩
  | some (.symlink t) => some ⟨.symlink, (Text.utf8 t).length, 0o120777, 0, 0⟩
  | none => if dirOf s key then some ⟨.dir, 0, 0o040555, 0, 0⟩ else none

/-- `read_at`. -/
def readAt (off len : ℕ) : IoResult Bytes :=
  match s.lookup (norm rel) with
  | some (.file data) => .ok ((data.drop off).take len)
  | _ => .error .other

/-- `readlink`. -/
def readlink : IoResult Text :=
  match s.lookup (norm rel) with
  | some (.symlink t) => .ok t
  | _ => .error .invalidInput

/-- `readdir`, up to the order of the entries. -/
def readdir : IoResult (List (Text × NodeKind)) :=
  let key := norm rel
  if ¬ dirOf s key then .error .other
  else
    let start := if key = ['/'] then ['/'] else key ++ ['/']
    let seen := s.entries.foldl (fun (seen : AList fun _ : Text => NodeKind) e =>
      match stripPrefix? e.1 start with
      | none => seen
      | some rest =>
        let (first, more) := match Text.splitAtFirst ['/'] rest with
          | some (a, _) => (a, true)
          | none => (rest, false)
        let kind := if more then .dir else match e.2 with
          | .file _ => .file
          | .symlink _ => NodeKind.symlink
        if first = [] ∨ first ∈ seen then seen else seen.insert first kind) ∅
    .ok (seen.entries.map fun e => (e.1, e.2))

/-- The read-only defaults of `MountFs`. -/
def readOnlyErr {α : Type} (s : State) : IoResult α × State := (.error .other, s)

/-- `ProcFs` as a file system. -/
def backend : Backend State where
  stat s rel := (stat s rel, s)
  readAt s rel off len := (readAt s rel off len, s)
  readdir s rel := (readdir s rel, s)
  readOnly _ := true
  writeAt s _ _ _ := readOnlyErr s
  create s _ _ := readOnlyErr s
  mkdir s _ _ := readOnlyErr s
  unlink s _ := readOnlyErr s
  rmdir s _ := readOnlyErr s
  truncate s _ _ := readOnlyErr s
  symlink s _ _ := readOnlyErr s
  rename s _ _ := readOnlyErr s
  hardlink s _ _ := readOnlyErr s
  readlink s rel := (readlink s rel, s)

/-- What is in `ProcFs`: a path names the key of its node. -/
def view : FileView State Text where
  node := norm
  content s key := match s.lookup key with
    | some node => some node.content
    | none => if dirOf s key then some .dir else none

/-- `ProcFs` is as `MountFs` documents it. -/
theorem lawful : backend.Lawful view where
  stat_keeps _ _ := rfl
  readlink_keeps _ _ := rfl
  create_ok _ _ _ h := by cases h
  create_error _ _ _ _ _ := rfl

/-- A file in the root, and `/proc` with the file `version`. -/
def sample : MountTable State :=
  (MountTable.withRoot (.withFiles [("/a".toList, [1])])).mount "/proc".toList
    (setFile ∅ "version".toList [2])

/-- `/proc` with the file `version`, a link to it, and a link that leads out of the mount. -/
def linked : MountTable State :=
  (MountTable.withRoot (.withFiles [])).mount "/proc".toList
    (setSymlink (setSymlink (setFile ∅ "version".toList [2]) "v".toList "version".toList)
      "stray".toList "../y".toList)

end ProcFs

end Univdreams.Emulator
