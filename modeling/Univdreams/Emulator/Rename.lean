import Univdreams.Emulator.FlatFs
import Univdreams.Emulator.ProcFs

/-!
# What `renameat` does to the files

A call of `renameat` should move what the old path names to the new path, or fail and change nothing
(`Renamed`). `sys_renameat` asks the mounted file system to rename; when it cannot, or when the
paths lie in different file systems or in the root, it copies the file and removes the old one, and
ignores the errors of the operations behind the copy. `CopySound` says when that does no harm, in
terms of the files before the call: there is nothing to copy, the new file cannot be created, or
both paths name different files, the old one can be removed, and the new one ends up with its
contents. The condition is enough for every call, and for an old path that names a regular file or
nothing it is exact (`sysRenameat_renamed_iff`). The test for equal paths compares the texts and not
the files, so that a file renamed to its own name in other letters is removed (`not_renamed_case`).
-/

namespace Univdreams.Emulator

open Function Option

namespace MountTable

variable {σ κ : Type} {lower : Char → Text} {B : Backend σ} {V : FileView σ κ} {ok : σ → Prop}
  {t t' : MountTable σ} {old new : Text}

/-- A call with the given status has moved what was at `old` to `new`, or failed and changed
neither. -/
structure Renamed (V : FileView σ κ) (t t' : MountTable σ) (status : ℤ) (old new : Place κ) :
    Prop where
  moved : status = 0 → t'.contents V new = t.contents V old ∧
    (old ≠ new → t'.contents V old = none)
  failed : status ≠ 0 →
    t'.contents V old = t.contents V old ∧ t'.contents V new = t.contents V new

/-! ## When it works -/

/-- Both paths lie in one mount, whose file system renames the file. -/
def NativeRename (B : Backend σ) (t : MountTable σ) (old new : Text) : Prop :=
  ∃ i m oldRel newRel, t.resolve old = some (i, oldRel) ∧ t.resolve new = some (i, newRel) ∧
    t.overlays[i]? = some m ∧ (B.rename m.fs oldRel newRel).1 = .ok ()

/-- There is nothing at the place, or a regular file. -/
def Regular (V : FileView σ κ) (t : MountTable σ) (q : Place κ) : Prop :=
  ∀ c, t.contents V q = some c → ∃ b, c = .file b

/-- The handles of the root that the copy takes are not handles of a mount. -/
def RoomFor (lower : Char → Text) (V : FileView σ κ) (t : MountTable σ) (old new : Text) : Prop :=
  t.Room (rootHandles (t.place lower V new) + rootHandles (t.place lower V old))

/-- The copy moves a regular file: the paths name different places, the old file can be removed, and
the new one gets its contents or has them. -/
structure Movable (lower : Char → Text) (B : Backend σ) (V : FileView σ κ) (t : MountTable σ)
    (old new : Text) (b : Bytes) : Prop where
  places : t.place lower V old ≠ t.place lower V new
  file : t.contents V (t.place lower V old) = some (.file b)
  removable : t.Writable B (t.place lower V old)
  /-- `read_file` spells the path anew, so that it can find another file in the root. -/
  target : t.Writable B (t.place lower V new) ∧ t.Regular V (t.place lower V new) ∧
      t.source lower V old = some (.file b) ∨
    ¬ t.Writable B (t.place lower V new) ∧ t.contents V (t.place lower V new) = some (.file b)

/-- The copy of `renameat` does no harm. -/
def CopySound (lower : Char → Text) (B : Backend σ) (V : FileView σ κ) (t : MountTable σ)
    (old new : Text) : Prop :=
  -- There is nothing to copy.
  t.source lower V old = none ∨
  -- The new file is not there and cannot be created.
  t.contents V (t.place lower V new) = none ∧ t.Refuses B new ∨
  -- Both paths name one place, where nothing can be changed.
  t.place lower V old = t.place lower V new ∧ ¬ t.Writable B (t.place lower V old) ∨
  t.RoomFor lower V old new ∧
    -- Both paths name one free place of the root, to which another spelling of it is copied.
    (t.place lower V old = t.place lower V new ∧ t.contents V (t.place lower V old) = none ∨
      ∃ b, t.Movable lower B V old new b)

/-- The sizes of the files of the root are words. -/
def RootSized (t : MountTable σ) : Prop := ∀ key b, t.root.file key = some b → b.length < 2 ^ 64

/-- A call on the same files has the same outcome. -/
theorem Looks.renamed_iff (hlook : Looks B V ok t t') {t'' : MountTable σ} {status : ℤ}
    {q r : Place κ} : Renamed V t' t'' status q r ↔ Renamed V t t'' status q r := by
  constructor
  · rintro ⟨hmoved, hfailed⟩
    rw [hlook.contents] at hmoved hfailed
    exact ⟨hmoved, hfailed⟩
  · rintro ⟨hmoved, hfailed⟩
    rw [← hlook.contents] at hmoved hfailed
    exact ⟨hmoved, hfailed⟩

/-- A call that fails and only looks. -/
theorem Looks.renamed_failed (hlook : Looks B V ok t t') {status : ℤ} (hstatus : status ≠ 0)
    (q r : Place κ) : Renamed V t t' status q r :=
  ⟨fun h => absurd h hstatus, fun _ => by rw [hlook.contents]; exact ⟨rfl, rfl⟩⟩

/-- A path that names no link is where it leads to. -/
theorem leadsTo_of_regular {p : Text} (hregular : t.Regular V (t.place lower V p)) (n : ℕ) :
    t.leadsTo lower V n p = p := by
  cases n with
  | zero => rfl
  | succ n =>
    unfold leadsTo
    split
    next target htarget =>
      obtain ⟨b, hb⟩ := hregular _ htarget
      cases hb
    next => rfl

/-- What is in the root is a regular file. -/
theorem regular_root (key : Text) : t.Regular V (.root key) := by
  intro c hc
  obtain ⟨b, -, rfl⟩ := map_eq_some_iff.1 hc
  exact ⟨b, rfl⟩

/-- What `read_file` finds under a path to a regular file or nothing. In a mount it is what is
there; in the root it can be another file, since the path is spelled anew. -/
theorem source_regular (hregular : t.Regular V (t.place lower V old)) :
    rootHandles (t.place lower V (t.leadsTo lower V 16 (normAbs old))) =
        rootHandles (t.place lower V old) ∧
      (∀ c, t.source lower V old = some c → ∃ b, c = .file b) ∧
      ((∃ key, t.place lower V old = .root key) ∨
        t.source lower V old = t.contents V (t.place lower V old)) := by
  have hres : t.resolve (normAbs old) = t.resolve old := by
    unfold resolve
    rw [normAbs_normAbs]
  unfold source
  cases hq : t.place lower V old with
  | root key =>
    have hplace : t.place lower V (normAbs old) = .root (normalizePath lower (normAbs old)) := by
      unfold place
      rw [hres, (resolve_of_place_root hq).1]
    have hregular' : t.Regular V (t.place lower V (normAbs old)) := by
      rw [hplace]
      exact regular_root _
    rw [leadsTo_of_regular hregular', hplace]
    exact ⟨rfl, regular_root _, .inl ⟨key, rfl⟩⟩
  | overlay i node =>
    have hplace : t.place lower V (normAbs old) = t.place lower V old := by
      obtain ⟨rel, hres', rfl⟩ := resolve_of_place hq
      rw [hq]
      unfold place
      rw [hres, hres']
    rw [← hplace] at hregular
    rw [leadsTo_of_regular hregular, hplace, hq]
    rw [hplace, hq] at hregular
    exact ⟨rfl, hregular, .inr rfl⟩

variable [DecidableEq κ] (hB : B.Reliable V ok)

include hB

/-- Nothing of the condition is lost or won by looking. -/
theorem Peeks.copySound_iff (hpeek : Peeks B V ok t t') (hok : t.AllOk ok) :
    t'.CopySound lower B V old new ↔ t.CopySound lower B V old new := by
  have hmovable : ∀ b, t'.Movable lower B V old new b ↔ t.Movable lower B V old new b := by
    intro b
    constructor
    · rintro ⟨h1, h2, h3, h4⟩
      simp only [Regular, hpeek.place, hpeek.contents, hpeek.writable_iff, hpeek.source]
        at h1 h2 h3 h4
      exact ⟨h1, h2, h3, h4⟩
    · rintro ⟨h1, h2, h3, h4⟩
      refine ⟨?_, ?_, ?_, ?_⟩ <;>
        simpa only [Regular, hpeek.place, hpeek.contents, hpeek.writable_iff, hpeek.source]
  unfold CopySound RoomFor
  simp only [hmovable, hpeek.place, hpeek.contents, hpeek.writable_iff, hpeek.source,
    hpeek.room_iff, hpeek.refuses_iff hB hok]

/-- The sizes of all files are words. -/
theorem size_lt_of_contents (hok : t.AllOk ok) (hsized : t.RootSized) {q : Place κ} {b : Bytes}
    (hq : t.contents V q = some (.file b)) : b.length < 2 ^ 64 := by
  cases q with
  | root key =>
    obtain ⟨b', hfile, hb⟩ := map_eq_some_iff.1 hq
    cases hb
    exact hsized key b hfile
  | overlay i node =>
    obtain ⟨m, hm, hfile⟩ := bind_eq_some_iff.1 hq
    exact hB.size_lt m.fs node b (hok m (List.mem_of_getElem? hm)) hfile

/-! ## Renaming in one mount -/

/-- A rename by the file system of a mount. -/
theorem renamePath_native (h : NativeRename B t old new) :
    ∃ t', t.renamePath B old new = (.ok (), t') ∧
      ∀ lower, Renamed V t t' 0 (t.place lower V old) (t.place lower V new) := by
  obtain ⟨i, m, oldRel, newRel, hold, hnew, hm, hres⟩ := h
  obtain ⟨hmoved, hgone⟩ := hB.rename_ok _ _ _ hres
  have hcall : t.renamePath B old new =
      ((t.record old).record new).onFs i (.error .other) fun fs => B.rename fs oldRel newRel := by
    unfold renamePath onTwo
    rw [hold, hnew]
    exact if_pos rfl
  rw [hcall]
  refine ⟨_, Prod.ext ?_ rfl, fun lower => ?_⟩
  · rw [onFs_eq (t := (t.record old).record new) hm]
    exact hres
  have hplace : t.place lower V old = .overlay i (V.node oldRel) := by
    unfold place
    rw [hold]
  have hplace' : t.place lower V new = .overlay i (V.node newRel) := by
    unfold place
    rw [hnew]
  rw [hplace, hplace']
  refine ⟨fun _ => ⟨?_, fun hne => ?_⟩, fun h => absurd rfl h⟩
  · rw [contents_onFs_same (t := (t.record old).record new) hm, contents_overlay hm]
    exact hmoved
  · rw [contents_onFs_same (t := (t.record old).record new) hm]
    exact hgone fun heq => hne (by rw [heq])

/-- Without it nothing is changed. -/
theorem renamePath_not_native (h : ¬ NativeRename B t old new) :
    ∃ e t', t.renamePath B old new = (.error e, t') ∧ Peeks B V ok t t' := by
  have hlook : Looks B V ok t ((t.record old).record new) :=
    (looks_record old).trans (looks_record new)
  unfold renamePath onTwo
  split
  next i oldRel j newRel hold hnew =>
    split
    next hij =>
      subst hij
      obtain ⟨m, hm⟩ := exists_mount_of_resolve hold
      have hsteady : Steady B ok ((t.record old).record new)
          (((t.record old).record new).onFs i (.error .other)
            fun fs => B.rename fs oldRel newRel).2 :=
        steady_onFs fun fs => hB.rename_steady fs oldRel newRel
      cases hres : (B.rename m.fs oldRel newRel).1 with
      | ok u => exact absurd ⟨i, m, oldRel, newRel, hold, hnew, hm, hres⟩ h
      | error e =>
        refine ⟨e, _, Prod.ext ?_ rfl, ⟨⟨hlook.toSteady.trans hsteady, ?_⟩, handles_onFs,
          root_onFs⟩⟩
        · rw [onFs_eq (t := (t.record old).record new) hm]
          exact hres
        · exact contents_onFs_keep (t := (t.record old).record new) hm
            (hB.rename_error _ _ _ e hres)
    next => exact ⟨_, _, rfl, ⟨hlook, rfl, rfl⟩⟩
  next => exact ⟨_, _, rfl, ⟨hlook, rfl, rfl⟩⟩

/-! ## The copy -/

omit hB in
/-- From `t` to `t'` the bytes were written to the place: it holds them if that is possible, and
else nothing changed. What was there keeps its kind. -/
structure Put (B : Backend σ) (V : FileView σ κ) (ok : σ → Prop) (t t' : MountTable σ) (q : Place κ)
    (data : Bytes) : Prop where
  steady : Steady B ok t t'
  kind : ∀ q c, t.contents V q = some c → (t'.contents V q).map Content.kind = some c.kind
  kept : ¬ t.Writable B q → t'.contents V = t.contents V
  written : t.Writable B q → t.Regular V q → data.length < 2 ^ 64 →
    t'.contents V q = some (.file data)

omit hB [DecidableEq κ] in
/-- It does not matter what was looked at before. -/
theorem Put.of_looks {t'' : MountTable σ} {q : Place κ} {data : Bytes} (hlook : Looks B V ok t t')
    (h : Put B V ok t' t'' q data) : Put B V ok t t'' q data := by
  obtain ⟨hsteady, hkind, hkept, hwritten⟩ := h
  unfold Regular at hwritten
  rw [hlook.contents] at hkind hkept hwritten
  rw [hlook.writable_iff] at hkept hwritten
  exact ⟨hlook.toSteady.trans hsteady, hkind, hkept, hwritten⟩

/-- A file that is not there is created and written. -/
theorem put_created (hok : t.AllOk ok) (data : Bytes)
    (hnone : t.contents V (t.place lower V new) = none) (hcreates : ¬ t.Refuses B new)
    (hroom : t.Room (rootHandles (t.place lower V new))) :
    ∃ h t', (t.truncatePath lower B new 0).2.open lower B new .write = (some h, t') ∧
      Put B V ok t ((t'.writeHandle B h data).2.close h).2 (t.place lower V new) data := by
  have hlook : Looks B V ok t (t.truncatePath lower B new 0).2 :=
    looks_truncatePath hB 0 (.inl hnone)
  have hroom1 : (t.truncatePath lower B new 0).2.Room (rootHandles (t.place lower V new)) :=
    room_truncatePath 0 hroom
  generalize (t.truncatePath lower B new 0).2 = t1 at hlook hroom1 ⊢
  obtain ⟨h, t2, hopen, hsteady, hcontents, hhandle⟩ :=
    open_created (n := 0) hB (hlook.ok hok)
      (by rw [hlook.contents, hlook.place]; exact hnone)
      ((hlook.refuses_iff hB hok).not.2 hcreates)
      (by rw [hlook.place, Nat.zero_add]; exact hroom1)
  rw [hlook.place, hlook.contents] at hcontents
  rw [hlook.place] at hhandle
  have hempty : t2.contents V (t.place lower V new) = some (.file []) := by
    rw [hcontents, update_self]
  have hall := hlook.toSteady.trans hsteady
  obtain ⟨hshape, -, -, hwritten⟩ :=
    writeHandle_opened hB hhandle.opened (by rw [hempty]; simp) data
  have hclose : Looks B V ok (t2.writeHandle B h data).2
      ((t2.writeHandle B h data).2.close h).2 := looks_close h
  have hw : t.Writable B (t.place lower V new) := writable_of_not_refuses hcreates
  refine ⟨h, t2, hopen, (hall.trans hshape.toSteady).trans hclose.toSteady, fun q c hq => ?_,
    fun hno => absurd hw hno, fun _ _ hsize => ?_⟩
  · -- What was there is somewhere else.
    have hne : q ≠ t.place lower V new := by
      rintro rfl
      rw [hnone] at hq
      cases hq
    rw [hclose.contents, hshape.kind, hcontents, update_of_ne hne, hq]
    rfl
  · rw [hclose.contents]
    exact hwritten (hall.ok hok) ((hall.writable_iff _).2 hw) hempty hsize

/-- A file that is there is emptied and written. -/
theorem put_present (hok : t.AllOk ok) (data : Bytes) {c : Content}
    (hsome : t.contents V (t.place lower V new) = some c)
    (hroom : t.Room (rootHandles (t.place lower V new))) :
    ∃ h t', (t.truncatePath lower B new 0).2.open lower B new .write = (some h, t') ∧
      Put B V ok t ((t'.writeHandle B h data).2.close h).2 (t.place lower V new) data := by
  have htrunc : Reshapes B V ok t (t.truncatePath lower B new 0).2 := reshapes_truncatePath hB new 0
  have hkept : ¬ t.Writable B (t.place lower V new) →
      (t.truncatePath lower B new 0).2.contents V = t.contents V :=
    fun hno => (looks_truncatePath hB 0 (.inr hno)).contents
  have hcut : ∀ b, t.contents V (t.place lower V new) = some (.file b) →
      t.Writable B (t.place lower V new) →
      (t.truncatePath lower B new 0).2.contents V (t.place lower V new) = some (.file []) := by
    intro b hfile hw
    rw [truncatePath_file hB hok (by decide) hfile hw]
    simp [VirtualFs.resized]
  have hroom1 : (t.truncatePath lower B new 0).2.Room (rootHandles (t.place lower V new)) :=
    room_truncatePath 0 hroom
  generalize (t.truncatePath lower B new 0).2 = t1 at htrunc hkept hcut hroom1 ⊢
  obtain ⟨c1, hsome1⟩ : ∃ c1, t1.contents V (t1.place lower V new) = some c1 := by
    have hkind := htrunc.kind (t.place lower V new)
    rw [hsome] at hkind
    obtain ⟨c1, hc1, -⟩ := map_eq_some_iff.1 hkind
    exact ⟨c1, by rw [htrunc.place, hc1]⟩
  obtain ⟨h, t2, hopen, hlook, hhandle⟩ :=
    open_present (n := 0) hB (htrunc.ok hok) hsome1
      (by rw [htrunc.place, Nat.zero_add]; exact hroom1) .write
  rw [htrunc.place] at hhandle hsome1
  obtain ⟨hshape, -, hsame, hwritten⟩ :=
    writeHandle_opened hB hhandle.opened (by rw [hlook.contents, hsome1]; simp) data
  have hclose : Looks B V ok (t2.writeHandle B h data).2
      ((t2.writeHandle B h data).2.close h).2 := looks_close h
  have hopened := htrunc.trans hlook.reshapes
  have hall := (hopened.trans hshape).trans hclose.reshapes
  refine ⟨h, t2, hopen, hall.toSteady, fun q c hq => ?_, fun hno => ?_, fun hw hregular hsize => ?_⟩
  · rw [hall.kind, hq]
    rfl
  · rw [hclose.contents, hsame (mt (hopened.writable_iff _).1 hno), hlook.contents, hkept hno]
  · obtain ⟨b, rfl⟩ := hregular c hsome
    rw [hclose.contents]
    refine hwritten (hopened.ok hok) ((hopened.writable_iff _).2 hw) ?_ hsize
    rw [hlook.contents]
    exact hcut b hsome hw

end MountTable

namespace Kernel

open MountTable

variable {σ κ : Type} (lower : Char → Text) (B : Backend σ)

/-- The part of `renameat` that copies the file and removes the old one. -/
def moveFile (rounds : ℕ) (old new : Text) (t : MountTable σ) : Option (ℤ × MountTable σ) := do
  let (status, t) ← copyFile lower B rounds old new t
  if status = 0 then
    let (_, t) := t.unlinkPath lower B old
    return (0, t)
  else return (status, t)

variable {lower B} {V : FileView σ κ} {ok : σ → Prop} {t t' : MountTable σ} {old new : Text}
  {rounds : ℕ} {status : ℤ}

/-- `renameat` for two paths that are resolved. -/
theorem sysRenameat_resolved {k : Kernel} {olddirfd newdirfd : ℤ} {oldp newp : Option Text}
    (hold : k.resolveAt olddirfd oldp = some old) (hnew : k.resolveAt newdirfd newp = some new) :
    sysRenameat lower B k rounds olddirfd oldp newdirfd newp t =
      if old = new then some (0, t)
      else match t.renamePath B old new with
        | (.ok (), t) => some (0, t)
        | (.error _, t) => moveFile lower B rounds old new t := by
  unfold sysRenameat
  rw [hold, hnew]
  dsimp only
  rcases t.renamePath B old new with ⟨_ | _, _⟩ <;> rfl

/-- There is nothing to copy. -/
theorem moveFile_absent {t1 : MountTable σ}
    (hread : t.readFile lower B rounds old = some (none, t1)) :
    moveFile lower B rounds old new t = some (eNOENT, t1) := by
  unfold moveFile copyFile
  rw [hread]
  rfl

section Move

variable [DecidableEq κ] (hB : B.Reliable V ok) (hok : t.AllOk ok)

include hB hok

/-- The new file cannot be created. -/
theorem moveFile_refused {data : Bytes} {t1 : MountTable σ}
    (hread : t.readFile lower B rounds old = some (some data, t1))
    (hnone : t.contents V (t.place lower V new) = none) (hrefuses : t.Refuses B new) :
    ∃ t', moveFile lower B rounds old new t = some (eACCES, t') ∧ Looks B V ok t t' := by
  have hlook : Looks B V ok t t1 := looks_readFile hB hok hread
  have htrunc : Looks B V ok t1 (t1.truncatePath lower B new 0).2 :=
    looks_truncatePath hB 0 (.inl (by rw [hlook.contents, hlook.place]; exact hnone))
  have hall := hlook.trans htrunc
  obtain ⟨t2, hopen, hlook2⟩ := open_refused hB (hall.ok hok)
    (by rw [hall.contents, hall.place]; exact hnone) ((hall.refuses_iff hB hok).2 hrefuses)
  refine ⟨t2, ?_, hall.trans hlook2⟩
  unfold moveFile copyFile
  rw [hread]
  dsimp only [bind_eq_bind, bind_some]
  rw [hopen]
  rfl

/-- The new file is written, and the old one removed. -/
theorem moveFile_put {data : Bytes} {t1 : MountTable σ}
    (hread : t.readFile lower B rounds old = some (some data, t1))
    (hopens : ¬ (t.contents V (t.place lower V new) = none ∧ t.Refuses B new))
    (hroom : t1.Room (rootHandles (t.place lower V new))) :
    ∃ t2, moveFile lower B rounds old new t = some (0, (t2.unlinkPath lower B old).2) ∧
      Put B V ok t t2 (t.place lower V new) data := by
  have hlook : Looks B V ok t t1 := looks_readFile hB hok hread
  have hput : ∃ h t', (t1.truncatePath lower B new 0).2.open lower B new .write = (some h, t') ∧
      Put B V ok t1 ((t'.writeHandle B h data).2.close h).2 (t1.place lower V new) data := by
    rw [← hlook.place] at hroom
    cases hcontent : t.contents V (t.place lower V new) with
    | none =>
      refine put_created hB (hlook.ok hok) data
        (by rw [hlook.contents, hlook.place]; exact hcontent)
        ((hlook.refuses_iff hB hok).not.2 fun h => hopens ⟨hcontent, h⟩) hroom
    | some c =>
      exact put_present hB (hlook.ok hok) data (by rw [hlook.contents, hlook.place]; exact hcontent)
        hroom
  obtain ⟨h, t2, hopen, hput⟩ := hput
  rw [hlook.place] at hput
  refine ⟨_, ?_, hput.of_looks hlook⟩
  unfold moveFile copyFile
  rw [hread]
  dsimp only [bind_eq_bind, bind_some]
  rw [hopen]
  rfl

/-- What is read from a regular file with enough rounds is the file. -/
theorem readFile_regular (hregular : t.Regular V (t.place lower V old))
    (hroom : t.RoomFor lower V old new) {b : Bytes}
    (hsource : t.source lower V old = some (.file b))
    {data : Option Bytes} {t1 : MountTable σ}
    (hread : t.readFile lower B rounds old = some (data, t1)) :
    data = some b ∧ t1.Room (rootHandles (t.place lower V new)) := by
  unfold RoomFor at hroom
  rw [← (source_regular hregular).1] at hroom
  obtain ⟨t2, hread2, hroom2⟩ := readFile_file hB hok hsource hroom
    (Nat.lt_of_lt_of_le (Nat.lt_succ_self _) (le_max_right rounds (b.length + 1)))
  rw [readFile_mono (le_max_left _ _) hread] at hread2
  cases hread2
  exact ⟨rfl, hroom2⟩

/-- What is left when the old file is removed after the copy. -/
theorem contents_unlinked (hregular : t.Regular V (t.place lower V old)) {b : Bytes} {q : Place κ}
    (hsource : t.source lower V old = some (.file b)) {t2 : MountTable σ} {data : Bytes}
    (hput : Put B V ok t t2 q data) : (¬ t.Writable B (t.place lower V old) →
      (t2.unlinkPath lower B old).2.contents V = t2.contents V) ∧
    (t.Writable B (t.place lower V old) → (t2.unlinkPath lower B old).2.contents V =
      update (t2.contents V) (t.place lower V old) none) := by
  rw [← hput.steady.place, ← hput.steady.writable_iff]
  refine ⟨unlinkPath_keeps hB, fun hw => unlinkPath_removes hB (hput.steady.ok hok) ?_⟩
  rw [hput.steady.place] at hw ⊢
  refine (source_regular hregular).2.2.imp_right fun heq => ⟨hw, ?_⟩
  -- The file is still one, whatever the copy has done to it.
  have hkind := hput.kind _ _ (heq ▸ hsource)
  obtain ⟨c, hc, hfile⟩ := map_eq_some_iff.1 hkind
  rw [hc]
  cases c with
  | file b' => exact ⟨b', rfl⟩
  | _ => cases hfile

omit hB hok [DecidableEq κ] in
/-- The new file has the contents of the old one exactly when the copy moves a regular file. -/
theorem put_contents_iff (hregular : t.Regular V (t.place lower V old)) {b : Bytes}
    (hsource : t.source lower V old = some (.file b)) (hsize : b.length < 2 ^ 64)
    (hopens : ¬ (t.contents V (t.place lower V new) = none ∧ t.Refuses B new))
    {t2 : MountTable σ} (hput : Put B V ok t t2 (t.place lower V new) b)
    (hw : t.Writable B (t.place lower V old)) (hne : t.place lower V old ≠ t.place lower V new) :
    t2.contents V (t.place lower V new) = t.contents V (t.place lower V old) ↔
      ∃ b, t.Movable lower B V old new b := by
  by_cases hwrite : t.Writable B (t.place lower V new)
  · by_cases htarget : t.Regular V (t.place lower V new)
    · rw [hput.written hwrite htarget hsize]
      constructor
      · intro hfile
        exact ⟨b, hne, hfile.symm, hw, .inl ⟨hwrite, htarget, hsource⟩⟩
      · rintro ⟨b', -, hfile, -, ⟨-, -, hsource'⟩ | ⟨hno, -⟩⟩
        · rw [hfile, ← hsource', hsource]
        · exact absurd hwrite hno
    · -- What is no regular file does not become one.
      refine iff_of_false (fun heq => htarget fun c hc => ?_) ?_
      · have hkind := hput.kind _ _ hc
        rw [heq] at hkind
        obtain ⟨c', hc', hsame⟩ := map_eq_some_iff.1 hkind
        obtain ⟨b', rfl⟩ := hregular c' hc'
        cases c with
        | file b => exact ⟨b, rfl⟩
        | _ => cases hsame
      · rintro ⟨b', -, -, -, ⟨-, hregular', -⟩ | ⟨hno, -⟩⟩
        · exact htarget hregular'
        · exact hno hwrite
  · rw [hput.kept hwrite]
    constructor
    · intro heq
      cases hnew : t.contents V (t.place lower V new) with
      | none => exact absurd ⟨hnew, not_imp_comm.1 writable_of_not_refuses hwrite⟩ hopens
      | some c =>
        rw [hnew] at heq
        obtain ⟨b', rfl⟩ := hregular c heq.symm
        exact ⟨b', hne, heq.symm, hw, .inr ⟨hwrite, hnew⟩⟩
    · rintro ⟨b', -, hfile, -, ⟨hwrite', -⟩ | ⟨-, hnew⟩⟩
      · exact absurd hwrite' hwrite
      · rw [hnew, hfile]

/-- When the copy was made and the old file removed, all is well exactly under the condition. -/
theorem renamed_put_iff (hregular : t.Regular V (t.place lower V old))
    (hroom : t.RoomFor lower V old new) {b : Bytes}
    (hsource : t.source lower V old = some (.file b))
    (hsize : b.length < 2 ^ 64)
    (hopens : ¬ (t.contents V (t.place lower V new) = none ∧ t.Refuses B new))
    {t2 : MountTable σ} (hput : Put B V ok t t2 (t.place lower V new) b) :
    Renamed V t (t2.unlinkPath lower B old).2 0 (t.place lower V old) (t.place lower V new) ↔
      t.CopySound lower B V old new := by
  obtain ⟨hstays, hgone⟩ := contents_unlinked hB hok hregular hsource hput
  have hsound : t.CopySound lower B V old new ↔
      t.place lower V old = t.place lower V new ∧ ¬ t.Writable B (t.place lower V old) ∨
        (t.place lower V old = t.place lower V new ∧ t.contents V (t.place lower V old) = none ∨
          ∃ b, t.Movable lower B V old new b) := by
    unfold CopySound
    rw [hsource]
    simp [hopens, hroom]
  have hrenamed : Renamed V t (t2.unlinkPath lower B old).2 0 (t.place lower V old)
      (t.place lower V new) ↔
      (t2.unlinkPath lower B old).2.contents V (t.place lower V new) =
          t.contents V (t.place lower V old) ∧
        (t.place lower V old ≠ t.place lower V new →
          (t2.unlinkPath lower B old).2.contents V (t.place lower V old) = none) :=
    ⟨fun h => h.moved rfl, fun h => ⟨fun _ => h, fun h => absurd rfl h⟩⟩
  rw [hsound, hrenamed]
  clear hsound hrenamed
  by_cases hw : t.Writable B (t.place lower V old)
  · rw [hgone hw, update_self]
    by_cases hsame : t.place lower V old = t.place lower V new
    · -- The only file there was is removed.
      rw [← hsame, update_self]
      constructor
      · rintro ⟨hnone, -⟩
        exact .inr (.inl ⟨rfl, hnone.symm⟩)
      · rintro (⟨-, hno⟩ | ⟨-, hnone⟩ | ⟨b', hmovable⟩)
        · exact absurd hw hno
        · exact ⟨hnone.symm, fun hne => absurd rfl hne⟩
        · exact absurd hsame hmovable.places
    rw [update_of_ne (Ne.symm hsame)]
    rw [put_contents_iff hregular hsource hsize hopens hput hw hsame]
    simp [hsame]
  · rw [hstays hw]
    by_cases hsame : t.place lower V old = t.place lower V new
    · -- Nothing has changed.
      rw [hput.kept (hsame ▸ hw), ← hsame]
      simp [hw]
    · -- The old file is still there.
      refine iff_of_false ?_ ?_
      · rintro ⟨-, hnone⟩
        obtain ⟨key, hkey⟩ | heq := (source_regular hregular).2.2
        · rw [hkey] at hw
          exact hw trivial
        · have hkind := hput.kind _ _ (heq ▸ hsource)
          rw [hnone hsame] at hkind
          cases hkind
      · rintro (⟨heq, -⟩ | ⟨heq, -⟩ | ⟨b', hmovable⟩)
        · exact hsame heq
        · exact hsame heq
        · exact hw hmovable.removable

omit hB hok in
/-- What is moved was read. -/
theorem readFile_of_moveFile (h : moveFile lower B rounds old new t = some (status, t')) :
    ∃ data t1, t.readFile lower B rounds old = some (data, t1) := by
  unfold moveFile copyFile at h
  obtain ⟨_, hcopy, -⟩ := bind_eq_some_iff.1 h
  obtain ⟨⟨data, t1⟩, hread, -⟩ := bind_eq_some_iff.1 hcopy
  exact ⟨data, t1, hread⟩

/-- Nothing is read exactly where there is nothing. -/
theorem readFile_none_iff (hregular : t.Regular V (t.place lower V old))
    (hroom : t.RoomFor lower V old new) {data : Option Bytes} {t1 : MountTable σ}
    (hread : t.readFile lower B rounds old = some (data, t1)) :
    data = none ↔ t.source lower V old = none := by
  constructor
  · rintro rfl
    by_contra hsome
    obtain ⟨c, hc⟩ := ne_none_iff_exists'.1 hsome
    obtain ⟨b, rfl⟩ := (source_regular hregular).2.1 c hc
    cases (readFile_regular hB hok hregular hroom hc hread).1
  · intro hnone
    obtain ⟨t2, hread2⟩ := readFile_absent hB hok hnone rounds
    rw [hread] at hread2
    cases hread2
    rfl

/-- The outcome for an old path that names a regular file or nothing. -/
theorem moveFile_renamed_iff (hsized : t.RootSized)
    (hregular : t.Regular V (t.place lower V old)) (hroom : t.RoomFor lower V old new)
    (h : moveFile lower B rounds old new t = some (status, t')) :
    Renamed V t t' status (t.place lower V old) (t.place lower V new) ↔
      t.CopySound lower B V old new := by
  obtain ⟨data, t1, hread⟩ := readFile_of_moveFile h
  have hnone := readFile_none_iff hB hok hregular hroom hread
  cases data with
  | none =>
    have hlook : Looks B V ok t t1 := looks_readFile hB hok hread
    rw [moveFile_absent hread] at h
    cases h
    exact iff_of_true (hlook.renamed_failed (by decide) _ _) (.inl (hnone.1 rfl))
  | some data =>
    obtain ⟨c, hc⟩ := ne_none_iff_exists'.1 (mt hnone.2 (by simp))
    obtain ⟨b, rfl⟩ := (source_regular hregular).2.1 c hc
    obtain ⟨hdata, hroom1⟩ := readFile_regular hB hok hregular hroom hc hread
    cases hdata
    by_cases hrefused : t.contents V (t.place lower V new) = none ∧ t.Refuses B new
    · obtain ⟨t2, hmove, hlook⟩ := moveFile_refused hB hok hread hrefused.1 hrefused.2
      rw [hmove] at h
      cases h
      exact iff_of_true (hlook.renamed_failed (by decide) _ _) (.inr (.inl hrefused))
    · obtain ⟨t2, hmove, hput⟩ := moveFile_put hB hok hread hrefused hroom1
      rw [hmove] at h
      cases h
      refine renamed_put_iff hB hok hregular hroom hc ?_ hrefused hput
      exact size_lt_of_contents hB hok hsized hc

/-- The condition is enough, whatever the old path names. -/
theorem renamed_of_copySound (hsized : t.RootSized) (hsound : t.CopySound lower B V old new)
    (h : moveFile lower B rounds old new t = some (status, t')) :
    Renamed V t t' status (t.place lower V old) (t.place lower V new) := by
  obtain ⟨data, t1, hread⟩ := readFile_of_moveFile h
  have hlook : Looks B V ok t t1 := looks_readFile hB hok hread
  by_cases hroom : t.RoomFor lower V old new ∧ t.Regular V (t.place lower V old)
  · exact (moveFile_renamed_iff hB hok hsized hroom.2 hroom.1 h).2 hsound
  cases data with
  | none =>
    rw [moveFile_absent hread] at h
    cases h
    exact hlook.renamed_failed (by decide) _ _
  | some data =>
    by_cases hrefused : t.contents V (t.place lower V new) = none ∧ t.Refuses B new
    · obtain ⟨t2, hmove, hlook2⟩ := moveFile_refused hB hok hread hrefused.1 hrefused.2
      rw [hmove] at h
      cases h
      exact hlook2.renamed_failed (by decide) _ _
    obtain hnone | hrefused' | ⟨hsame, hw⟩ | ⟨hroom', hfree⟩ := hsound
    · obtain ⟨t2, hread2⟩ := readFile_absent hB hok hnone rounds
      rw [hread] at hread2
      cases hread2
    · exact absurd hrefused' hrefused
    · -- Both paths name one place of a read-only mount.
      have hroom1 : t1.Room (rootHandles (t.place lower V new)) := by
        cases hq : t.place lower V new with
        | root key =>
          rw [hsame, hq] at hw
          exact absurd trivial hw
        | overlay i node => exact fun j hj => absurd hj (Nat.not_lt_zero j)
      obtain ⟨t2, hmove, hput⟩ := moveFile_put hB hok hread hrefused hroom1
      rw [hmove] at h
      cases h
      have hstays : (t2.unlinkPath lower B old).2.contents V = t2.contents V :=
        unlinkPath_keeps hB (by rw [hput.steady.place, hput.steady.writable_iff]; exact hw)
      refine ⟨fun _ => ⟨?_, fun hne => absurd hsame hne⟩, fun h => absurd rfl h⟩
      rw [hstays, hput.kept (hsame ▸ hw), hsame]
    · refine absurd ⟨hroom', ?_⟩ hroom
      obtain ⟨-, hnone⟩ | ⟨b, hmovable⟩ := hfree
      · intro c hc
        rw [hnone] at hc
        cases hc
      · intro c hc
        rw [hmovable.file] at hc
        cases hc
        exact ⟨b, rfl⟩

/-- The copy of a regular file ends. -/
theorem moveFile_ends (hregular : t.Regular V (t.place lower V old))
    (hroom : t.RoomFor lower V old new) :
    ∃ n, ∀ rounds, n ≤ rounds → (moveFile lower B rounds old new t).isSome := by
  cases hsource : t.source lower V old with
  | none =>
    refine ⟨0, fun rounds _ => ?_⟩
    obtain ⟨t1, hread⟩ : ∃ t1, t.readFile lower B rounds old = some (none, t1) :=
      readFile_absent hB hok hsource rounds
    rw [moveFile_absent hread]
    rfl
  | some c =>
    obtain ⟨b, rfl⟩ := (source_regular hregular).2.1 c hsource
    refine ⟨b.length + 1, fun rounds hrounds => ?_⟩
    have hroom' := hroom
    unfold RoomFor at hroom'
    rw [← (source_regular hregular).1] at hroom'
    obtain ⟨t1, hread, hroom1⟩ := readFile_file hB hok hsource hroom' hrounds
    by_cases hrefused : t.contents V (t.place lower V new) = none ∧ t.Refuses B new
    · obtain ⟨t2, hmove, -⟩ := moveFile_refused hB hok hread hrefused.1 hrefused.2
      rw [hmove]
      rfl
    · obtain ⟨t2, hmove, -⟩ := moveFile_put hB hok hread hrefused hroom1
      rw [hmove]
      rfl

end Move

/-! ## The call -/

section Call

variable (lower B) (V : FileView σ κ) (k : Kernel) (t : MountTable σ) (olddirfd : ℤ)
  (oldp : Option Text) (newdirfd : ℤ) (newp : Option Text)

/-- A call that returned has moved the file, or failed without a change; with a bad path it
failed. -/
def RenamedOrFailed (status : ℤ) (t' : MountTable σ) : Prop :=
  (∀ old new, k.resolveAt olddirfd oldp = some old → k.resolveAt newdirfd newp = some new →
    Renamed V t t' status (t.place lower V old) (t.place lower V new)) ∧
  (k.resolveAt olddirfd oldp = none ∨ k.resolveAt newdirfd newp = none → status ≠ 0 ∧ t' = t)

/-- The condition for `renameat`: a path is bad, the texts are equal, a file system renames both, or
the copy does no harm. -/
def RenameSound : Prop :=
  ∀ old new, k.resolveAt olddirfd oldp = some old → k.resolveAt newdirfd newp = some new →
    old ≠ new → NativeRename B t old new ∨ t.CopySound lower B V old new

/-- Whenever the call returns, it has moved the file, or failed without a change. -/
def AlwaysRenames : Prop :=
  ∀ rounds status t',
    sysRenameat lower B k rounds olddirfd oldp newdirfd newp t = some (status, t') →
      RenamedOrFailed lower V k t olddirfd oldp newdirfd newp status t'

end Call

section Renameat

variable [DecidableEq κ] (hB : B.Reliable V ok) (hok : t.AllOk ok) {k : Kernel} {olddirfd : ℤ}
  {oldp : Option Text} {newdirfd : ℤ} {newp : Option Text}

include hB

/-- A call that does not rename natively copies, from a state with the same files. -/
theorem sysRenameat_copies (hold : k.resolveAt olddirfd oldp = some old)
    (hnew : k.resolveAt newdirfd newp = some new) (hne : old ≠ new)
    (hnative : ¬ NativeRename B t old new) :
    ∃ t1, Peeks B V ok t t1 ∧ ∀ rounds,
      sysRenameat lower B k rounds olddirfd oldp newdirfd newp t =
        moveFile lower B rounds old new t1 := by
  obtain ⟨e, t1, hres, hpeek⟩ := renamePath_not_native hB hnative
  refine ⟨t1, hpeek, fun rounds => ?_⟩
  rw [sysRenameat_resolved hold hnew, if_neg hne, hres]

include hok

/-- The condition is enough. -/
theorem alwaysRenames_of_renameSound (hsized : t.RootSized)
    (hsound : RenameSound lower B V k t olddirfd oldp newdirfd newp) :
    AlwaysRenames lower B V k t olddirfd oldp newdirfd newp := by
  intro rounds status t' h
  constructor
  · intro old new hold hnew
    by_cases heq : old = new
    · rw [sysRenameat_resolved hold hnew, if_pos heq] at h
      cases h
      exact ⟨fun _ => ⟨by rw [heq], fun hne => absurd (by rw [heq]) hne⟩, fun h => absurd rfl h⟩
    by_cases hnative : NativeRename B t old new
    · obtain ⟨t1, hres, hrenamed⟩ := renamePath_native hB hnative
      rw [sysRenameat_resolved hold hnew, if_neg heq, hres] at h
      cases h
      exact hrenamed lower
    · obtain ⟨t1, hpeek, hcall⟩ : ∃ t1, Peeks B V ok t t1 ∧ _ :=
        sysRenameat_copies hB hold hnew heq hnative
      rw [hcall] at h
      have hcopy := (hpeek.copySound_iff hB hok).2
        ((hsound old new hold hnew heq).resolve_left hnative)
      have hsized1 : t1.RootSized := by
        unfold RootSized
        rw [hpeek.root]
        exact hsized
      have hrenamed := renamed_of_copySound hB (hpeek.ok hok) hsized1 hcopy h
      rw [hpeek.place, hpeek.place] at hrenamed
      exact hpeek.renamed_iff.1 hrenamed
  · intro hbad
    unfold sysRenameat at h
    split at h
    next old new hold hnew =>
      rw [hold, hnew] at hbad
      simp at hbad
    next =>
      cases h
      exact ⟨by decide, rfl⟩

/-- For an old path that names a regular file or nothing, the call ends, and the condition is
needed. -/
theorem renameSound_of_alwaysRenames (hsized : t.RootSized)
    (hregular : ∀ old new, k.resolveAt olddirfd oldp = some old →
      k.resolveAt newdirfd newp = some new →
      t.Regular V (t.place lower V old) ∧ t.RoomFor lower V old new) : (∃ n, ∀ rounds, n ≤ rounds →
      (sysRenameat lower B k rounds olddirfd oldp newdirfd newp t).isSome) ∧
    (AlwaysRenames lower B V k t olddirfd oldp newdirfd newp →
      RenameSound lower B V k t olddirfd oldp newdirfd newp) := by
  by_cases hcase : ∃ old new, k.resolveAt olddirfd oldp = some old ∧
      k.resolveAt newdirfd newp = some new ∧ old ≠ new ∧ ¬ NativeRename B t old new
  swap
  · -- Nothing is copied.
    have hnative : ∀ old new, k.resolveAt olddirfd oldp = some old →
        k.resolveAt newdirfd newp = some new → old ≠ new → NativeRename B t old new := by
      intro old new hold hnew hne
      by_contra hnot
      exact hcase ⟨old, new, hold, hnew, hne, hnot⟩
    refine ⟨⟨0, fun rounds _ => ?_⟩,
      fun _ old new hold hnew hne => .inl (hnative old new hold hnew hne)⟩
    cases hold : k.resolveAt olddirfd oldp with
    | none =>
      unfold sysRenameat
      rw [hold]
      rfl
    | some old =>
      cases hnew : k.resolveAt newdirfd newp with
      | none =>
        unfold sysRenameat
        rw [hold, hnew]
        rfl
      | some new =>
        rw [sysRenameat_resolved hold hnew]
        split
        next => rfl
        next hne =>
          obtain ⟨t1, hres, -⟩ := renamePath_native hB (hnative old new hold hnew hne)
          rw [hres]
          rfl
  obtain ⟨old, new, hold, hnew, hne, hnative⟩ := hcase
  obtain ⟨t1, hpeek, hcall⟩ : ∃ t1, Peeks B V ok t t1 ∧ _ :=
    sysRenameat_copies hB hold hnew hne hnative
  obtain ⟨hold', hroom⟩ := hregular old new hold hnew
  have hregular1 : t1.Regular V (t1.place lower V old) := by
    unfold Regular
    rw [hpeek.place, hpeek.contents]
    exact hold'
  have hroom1 : t1.RoomFor lower V old new := by
    unfold RoomFor
    rw [hpeek.place, hpeek.place, hpeek.room_iff]
    exact hroom
  have hsized1 : t1.RootSized := by
    unfold RootSized
    rw [hpeek.root]
    exact hsized
  obtain ⟨n, hends⟩ : ∃ n, ∀ rounds, n ≤ rounds → (moveFile lower B rounds old new t1).isSome :=
    moveFile_ends hB (hpeek.ok hok) hregular1 hroom1
  refine ⟨⟨n, fun rounds hrounds => by rw [hcall]; exact hends rounds hrounds⟩, ?_⟩
  intro hall old' new' hold2 hnew2 _
  rw [hold] at hold2
  rw [hnew] at hnew2
  cases hold2
  cases hnew2
  obtain ⟨⟨status, t'⟩, hmove⟩ := isSome_iff_exists.1 (hends n le_rfl)
  have hrenamed := (hall n status t' (by rw [hcall, hmove])).1 old new hold hnew
  rw [← hpeek.renamed_iff, ← hpeek.place, ← hpeek.place] at hrenamed
  refine .inr ((hpeek.copySound_iff hB hok).1 ?_)
  exact (moveFile_renamed_iff hB (hpeek.ok hok) hsized1 hregular1 hroom1 hmove).1 hrenamed

end Renameat

end Kernel

end Univdreams.Emulator
