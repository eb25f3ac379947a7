import Univdreams.Emulator.Reliable

/-!
# A file system in memory

Regular files without directories, under names without regard to case. The source has no such mount:
its file systems that can be written are disk images behind a library. This one shows that what is
asked of a mounted file system can be met by one that can be written, and in which a file has
several names.
-/

namespace Univdreams.Emulator

open AList

namespace FlatFs

/-- The files, by their names in lower case. -/
abbrev State := AList fun _ : Text => Bytes

/-- The name of a file in lower case. -/
def key (rel : Text) : Text := rel.map Char.toLower

/-- Change a file if it is there and the size it needs is a word. -/
def edit {α : Type} (s : State) (rel : Text) (size : ℕ) (result : α) (f : Bytes → Bytes) :
    IoResult α × State :=
  match s.lookup (key rel) with
  | some b => if size < 2 ^ 64 then (.ok result, s.insert (key rel) (f b)) else (.error .other, s)
  | none => (.error .other, s)

/-- What is not supported. -/
def unsupported {α : Type} (s : State) : IoResult α × State := (.error .other, s)

/-- The file system. -/
def backend : Backend State where
  stat s rel := ((s.lookup (key rel)).map fun b => ⟨.file, b.length, 0o100644, 0, 0⟩, s)
  readAt s rel off len := (match s.lookup (key rel) with
    | some b => .ok ((b.drop off).take len)
    | none => .error .other, s)
  readdir s _ := unsupported s
  readOnly _ := false
  writeAt s rel off data :=
    edit s rel (off + data.length) data.length fun b => VirtualFs.overwrite b off data
  create s rel _ := (.ok (), if key rel ∈ s then s else s.insert (key rel) [])
  mkdir s _ _ := unsupported s
  unlink s rel := (if key rel ∈ s then .ok () else .error .other, s.erase (key rel))
  rmdir s _ := unsupported s
  truncate s rel len := edit s rel len () (VirtualFs.resized len)
  symlink s _ _ := unsupported s
  rename s _ _ := unsupported s
  hardlink s _ _ := unsupported s
  readlink s _ := unsupported s

/-- What is in the file system. -/
def view : FileView State Text where
  node := key
  content s k := (s.lookup k).map .file

/-- The sizes of the files are words. -/
def Sized (s : State) : Prop := ∀ k b, s.lookup k = some b → b.length < 2 ^ 64

/-- A file that is entered has a size that is a word. -/
theorem Sized.insert {s : State} (hs : Sized s) {k : Text} {b : Bytes} (hb : b.length < 2 ^ 64) :
    Sized (s.insert k b) := by
  intro k' b' hlookup
  by_cases hk : k' = k
  · rw [hk, lookup_insert] at hlookup
    cases hlookup
    exact hb
  · rw [lookup_insert_ne hk] at hlookup
    exact hs k' b' hlookup

section Edit

variable {s : State} {rel : Text} {size : ℕ} {α : Type} {result : α} {f : Bytes → Bytes}

/-- A change of a file stays in the states with sizes. -/
theorem Sized.edit (hs : Sized s)
    (hf : ∀ b, b.length < 2 ^ 64 → size < 2 ^ 64 → (f b).length < 2 ^ 64) :
    Sized (edit s rel size result f).2 := by
  unfold FlatFs.edit
  split
  next b hb =>
    split
    next hsize => exact hs.insert (hf b (hs _ b hb) hsize)
    next => exact hs
  next => exact hs

/-- A change of a file that is there. -/
theorem content_edit {b : Bytes} (hsize : size < 2 ^ 64)
    (hb : view.content s (view.node rel) = some (.file b)) :
    view.content (edit s rel size result f).2 (view.node rel) = some (.file (f b)) := by
  obtain ⟨b', hlookup, hfile⟩ := Option.map_eq_some_iff.1 hb
  cases hfile
  change s.lookup (key rel) = some b at hlookup
  unfold edit
  rw [hlookup]
  dsimp only
  rw [if_pos hsize]
  show ((s.insert (key rel) (f b)).lookup (key rel)).map Content.file = _
  rw [lookup_insert]
  rfl

/-- A change of a file makes and removes none. -/
theorem kind_edit (k : Text) : (view.content (edit s rel size result f).2 k).map Content.kind =
    (view.content s k).map Content.kind := by
  unfold edit
  split
  next b hb =>
    split
    next =>
      show (((s.insert (key rel) (f b)).lookup k).map Content.file).map _ =
        ((s.lookup k).map Content.file).map _
      by_cases hk : k = key rel
      · rw [hk, lookup_insert, hb]
        rfl
      · rw [lookup_insert_ne hk]
    next => rfl
  next => rfl

/-- Nothing is changed where there is no file. -/
theorem edit_absent (hnone : view.content s (view.node rel) = none) :
    (edit s rel size result f).2 = s := by
  have hlookup : s.lookup (key rel) = none := Option.map_eq_none_iff.1 hnone
  unfold edit
  rw [hlookup]

end Edit

/-- The file system is as `MountFs` documents it. -/
theorem lawful : backend.Lawful view where
  stat_keeps _ _ := rfl
  readlink_keeps _ _ := rfl
  create_ok s rel _ _ := by
    funext k
    show ((if key rel ∈ s then s else s.insert (key rel) []).lookup k).map Content.file = _
    by_cases hk : k = view.node rel
    · rw [hk, Function.update_self]
      show ((if key rel ∈ s then s else s.insert (key rel) []).lookup (key rel)).map _ =
        some (((s.lookup (key rel)).map Content.file).getD (.file []))
      by_cases hmem : key rel ∈ s
      · obtain ⟨b, hb⟩ := Option.isSome_iff_exists.1 (lookup_isSome.2 hmem)
        rw [if_pos hmem, hb]
        rfl
      · rw [if_neg hmem, lookup_insert, lookup_eq_none.2 hmem]
        rfl
    · rw [Function.update_of_ne hk]
      split
      · rfl
      · exact congrArg _ (lookup_insert_ne hk)
  create_error _ _ _ _ h := by cases h

/-- The file system does what it is asked. -/
theorem reliable : backend.Reliable view Sized where
  toLawful := lawful
  stat_steady _ _ := ⟨id, rfl⟩
  readlink_steady _ _ := ⟨id, rfl⟩
  readAt_steady _ _ _ _ := ⟨id, rfl⟩
  create_steady s rel _ := by
    refine ⟨fun hs => ?_, rfl⟩
    show Sized (if key rel ∈ s then s else s.insert (key rel) [])
    split
    · exact hs
    · exact hs.insert (by decide)
  truncate_steady s rel len := by
    refine ⟨fun hs => hs.edit fun b hb hlen => ?_, rfl⟩
    simp only [VirtualFs.resized, List.length_append, List.length_take, List.length_replicate]
    omega
  writeAt_steady s rel off data := by
    refine ⟨fun hs => hs.edit fun b hb hlen => ?_, rfl⟩
    simp only [VirtualFs.overwrite, VirtualFs.resized, List.length_append, List.length_take,
      List.length_replicate, List.length_drop]
    omega
  unlink_steady s rel := by
    refine ⟨fun hs k b hlookup => ?_, rfl⟩
    change (s.erase (key rel)).lookup k = some b at hlookup
    by_cases hk : k = key rel
    · rw [hk, lookup_erase] at hlookup
      cases hlookup
    · rw [lookup_erase_ne hk] at hlookup
      exact hs k b hlookup
  rename_steady _ _ _ := ⟨id, rfl⟩
  stat_kind s rel _ := by
    show ((s.lookup (key rel)).map _).map _ = ((s.lookup (key rel)).map Content.file).map _
    cases s.lookup (key rel) <;> rfl
  readlink_symlink s rel target _ hlink := by
    obtain ⟨b, -, hb⟩ := Option.map_eq_some_iff.1 hlink
    cases hb
  size_lt s k b hs hfile := by
    obtain ⟨b', hlookup, hb⟩ := Option.map_eq_some_iff.1 hfile
    cases hb
    exact hs k b hlookup
  readAt_keeps _ _ _ _ := rfl
  readAt_file s rel off len b _ hfile := by
    obtain ⟨b', hlookup, hb⟩ := Option.map_eq_some_iff.1 hfile
    cases hb
    change s.lookup (key rel) = some b at hlookup
    show (match s.lookup (key rel) with
      | some b => (.ok ((b.drop off).take len) : IoResult Bytes)
      | none => .error .other) = _
    rw [hlookup]
  create_answer _ _ _ _ _ _ _ _ _ := rfl
  truncate_file _ _ _ _ _ _ hlen hfile := content_edit hlen hfile
  truncate_kind _ _ _ k := kind_edit k
  truncate_keeps s rel len h := by
    obtain hnone | hro := h
    · exact congrArg view.content (edit_absent hnone)
    · cases hro
  writeAt_file _ _ _ _ _ _ _ hlen hfile := content_edit hlen hfile
  writeAt_kind _ _ _ _ k := kind_edit k
  writeAt_keeps _ _ _ _ hro := by cases hro
  unlink_file s rel b _ _ _ := by
    funext k
    show ((s.erase (key rel)).lookup k).map Content.file = _
    by_cases hk : k = view.node rel
    · rw [hk, Function.update_self]
      exact congrArg _ (lookup_erase _ _)
    · rw [Function.update_of_ne hk]
      exact congrArg _ (lookup_erase_ne hk)
  unlink_keeps _ _ hro := by cases hro
  rename_ok _ _ _ h := by cases h
  rename_error _ _ _ _ _ := rfl

/-- Files in the root, one named like one of the mount, and the file system at `/data`. -/
def sample : MountTable State :=
  (MountTable.withRoot (.withFiles [("/a".toList, [1]), ("/data/new".toList, [])])).mount
    "/data".toList ((∅ : State).insert "/old".toList [2, 3])

/-- The file of the sample is small. -/
theorem sample_allOk : sample.AllOk Sized := by
  intro m hm
  obtain hm | rfl := MountTable.mem_mounted hm
  · cases hm
  refine Sized.insert ?_ (by decide)
  intro k b hlookup
  rw [lookup_empty] at hlookup
  cases hlookup

end FlatFs

end Univdreams.Emulator
