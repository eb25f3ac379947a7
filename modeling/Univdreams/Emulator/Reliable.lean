import Univdreams.Emulator.Files

/-!
# File systems that do what they are asked

A call that ignores the errors of its operations works only when there are none. `Backend.Reliable`
says of a file system that in some of its states, `ok`, what is there is reported as it is, every
regular file can be read, and also be cut off, written and removed unless the file system is
read-only, in which case nothing changes. For each operation of the mount table that moves files
there is then one lemma about what it does at the place that a path names: `resolve_symlinks`,
`open`, `read_handle`, `write_handle`, `close`, `truncate_path`, `unlink_path` and `read_file`.

Hard links are possible: to write a file may change what is at other places, but not its kind.
-/

namespace Univdreams.Emulator

open List Option AList Function VirtualFs

variable {p : Text} {i : ℕ} {n : ℕ}

/-- An operation from `s` to `s'` stays in the states `ok`, and makes nothing read-only. -/
def Backend.Steady {σ : Type} (B : Backend σ) (ok : σ → Prop) (s s' : σ) : Prop :=
  (ok s → ok s') ∧ B.readOnly s' = B.readOnly s

/-- What the operations do in the states `ok`. -/
structure Backend.Reliable {σ κ : Type} [DecidableEq κ] (B : Backend σ) (V : FileView σ κ)
    (ok : σ → Prop) : Prop extends B.Lawful V where
  stat_steady : ∀ s rel, B.Steady ok s (B.stat s rel).2
  readlink_steady : ∀ s rel, B.Steady ok s (B.readlink s rel).2
  readAt_steady : ∀ s rel off len, B.Steady ok s (B.readAt s rel off len).2
  create_steady : ∀ s rel mode, B.Steady ok s (B.create s rel mode).2
  truncate_steady : ∀ s rel len, B.Steady ok s (B.truncate s rel len).2
  writeAt_steady : ∀ s rel off data, B.Steady ok s (B.writeAt s rel off data).2
  unlink_steady : ∀ s rel, B.Steady ok s (B.unlink s rel).2
  rename_steady : ∀ s old new, B.Steady ok s (B.rename s old new).2
  stat_kind : ∀ s rel, ok s →
    (B.stat s rel).1.map Attrs.kind = (V.content s (V.node rel)).map Content.kind
  readlink_symlink : ∀ s rel target, ok s → V.content s (V.node rel) = some (.symlink target) →
    (B.readlink s rel).1 = .ok target
  /-- The size of a file is a 64-bit word. -/
  size_lt : ∀ s node b, ok s → V.content s node = some (.file b) → b.length < 2 ^ 64
  readAt_keeps : ∀ s rel off len, V.content (B.readAt s rel off len).2 = V.content s
  readAt_file : ∀ s rel off len b, ok s → V.content s (V.node rel) = some (.file b) →
    (B.readAt s rel off len).1 = .ok ((b.drop off).take len)
  /-- Whether a file can be created depends on the files alone. -/
  create_answer : ∀ s s' rel mode, ok s → ok s' → V.content s = V.content s' →
    B.readOnly s = B.readOnly s' → (B.create s rel mode).1 = .ok () →
    (B.create s' rel mode).1 = .ok ()
  truncate_file : ∀ s rel len b, ok s → B.readOnly s = false → len < 2 ^ 64 →
    V.content s (V.node rel) = some (.file b) →
    V.content (B.truncate s rel len).2 (V.node rel) = some (.file (VirtualFs.resized len b))
  truncate_kind : ∀ s rel len node,
    (V.content (B.truncate s rel len).2 node).map Content.kind =
      (V.content s node).map Content.kind
  truncate_keeps : ∀ s rel len, V.content s (V.node rel) = none ∨ B.readOnly s = true →
    V.content (B.truncate s rel len).2 = V.content s
  writeAt_file : ∀ s rel off data b, ok s → B.readOnly s = false → off + data.length < 2 ^ 64 →
    V.content s (V.node rel) = some (.file b) →
    V.content (B.writeAt s rel off data).2 (V.node rel) =
      some (.file (VirtualFs.overwrite b off data))
  writeAt_kind : ∀ s rel off data node,
    (V.content (B.writeAt s rel off data).2 node).map Content.kind =
      (V.content s node).map Content.kind
  writeAt_keeps : ∀ s rel off data, B.readOnly s = true →
    V.content (B.writeAt s rel off data).2 = V.content s
  unlink_file : ∀ s rel b, ok s → B.readOnly s = false →
    V.content s (V.node rel) = some (.file b) →
    V.content (B.unlink s rel).2 = update (V.content s) (V.node rel) none
  unlink_keeps : ∀ s rel, B.readOnly s = true → V.content (B.unlink s rel).2 = V.content s
  rename_ok : ∀ s old new, (B.rename s old new).1 = .ok () →
    V.content (B.rename s old new).2 (V.node new) = V.content s (V.node old) ∧
      (V.node old ≠ V.node new → V.content (B.rename s old new).2 (V.node old) = none)
  rename_error : ∀ s old new e, (B.rename s old new).1 = .error e →
    V.content (B.rename s old new).2 = V.content s

namespace MountTable

variable {σ κ : Type} {lower : Char → Text} {B : Backend σ} {V : FileView σ κ} {ok : σ → Prop}

/-! ## Places -/

variable {t : MountTable σ}

/-- Every mounted file system is in a state `ok`. -/
def AllOk (ok : σ → Prop) (t : MountTable σ) : Prop := ∀ m ∈ t.overlays, ok m.fs

/-- Whether the mount with the given number is read-only. -/
def readOnlyAt (B : Backend σ) (t : MountTable σ) (i : ℕ) : Option Bool :=
  t.overlays[i]?.map fun m => B.readOnly m.fs

/-- Files can be written at the place. -/
def Writable (B : Backend σ) (t : MountTable σ) : Place κ → Prop
  | .root _ => True
  | .overlay i _ => t.readOnlyAt B i = some false

/-- The handle `h` is open on a file of the root, or on a path in a mount. A handle of a mount hides
one of the root. -/
def Opened (t : MountTable σ) (h : ℕ) (q : Place Text) (pos : ℕ) (access : FileAccess) : Prop :=
  match q with
  | .root key => t.handles.lookup h = none ∧ t.root.openFiles.lookup h = some ⟨key, pos, access⟩
  | .overlay i rel => t.handles.lookup h = some ⟨i, rel, pos, access⟩

/-- The handle `h` is open on the file at the place, under one of its names. -/
def OpenedAt (V : FileView σ κ) (t : MountTable σ) (h : ℕ) (q : Place κ) (pos : ℕ)
    (access : FileAccess) : Prop :=
  match q with
  | .root key => t.Opened h (.root key) pos access
  | .overlay i node => ∃ rel, V.node rel = node ∧ t.Opened h (.overlay i rel) pos access

/-- The next `n` handles of the root are not handles of a mount. -/
def Room (n : ℕ) (t : MountTable σ) : Prop :=
  ∀ j < n, t.handles.lookup ((VirtualFs.handleBase + t.root.nextHandle + j) % 2 ^ 32) = none

/-- A path that is routed to a mount is routed to one that is there. -/
theorem exists_mount_of_resolve {abs rel : Text} (h : t.resolve abs = some (i, rel)) :
    ∃ m, t.overlays[i]? = some m := by
  unfold resolve at h
  obtain ⟨⟨point, j⟩, hmem, hfound⟩ := List.exists_of_findSome?_eq_some h
  obtain ⟨rel', -, heq⟩ := map_eq_some_iff.1 hfound
  have hji : j = i := congrArg Prod.fst heq
  have hpoint := mk_mem_zipIdx_iff_getElem?.1 hmem
  rw [hji] at hpoint
  unfold points at hpoint
  rw [List.getElem?_map] at hpoint
  obtain ⟨m, hm, -⟩ := map_eq_some_iff.1 hpoint
  exact ⟨m, hm⟩

/-- A place in a mount comes from a path that is routed there. -/
theorem resolve_of_place {abs : Text} {node : κ} (h : t.place lower V abs = .overlay i node) :
    ∃ rel, t.resolve abs = some (i, rel) ∧ V.node rel = node := by
  unfold place at h
  split at h
  next j rel hres =>
    cases h
    exact ⟨rel, hres, rfl⟩
  next => cases h

/-- A place in the root comes from a path that is routed to the root. -/
theorem resolve_of_place_root {abs key : Text} (h : t.place lower V abs = .root key) :
    t.resolve abs = none ∧ normalizePath lower abs = key := by
  unfold place at h
  split at h
  next => cases h
  next hres =>
    cases h
    exact ⟨hres, rfl⟩

/-- What is at a node of a mount. -/
theorem contents_overlay {m : Mount σ} (h : t.overlays[i]? = some m) (node : κ) :
    t.contents V (.overlay i node) = V.content m.fs node := by
  show (t.overlays[i]?.bind fun m => V.content m.fs node) = V.content m.fs node
  rw [h, bind_some]

/-- Files can be written in a mount exactly when its file system is not read-only. -/
theorem writable_overlay_iff {m : Mount σ} {node : κ} (hm : t.overlays[i]? = some m) :
    t.Writable B (.overlay i node) ↔ B.readOnly m.fs = false := by
  show t.readOnlyAt B i = some false ↔ _
  unfold readOnlyAt
  rw [hm, map_some, Option.some.injEq]

/-! ## What is kept -/

/-- From `t` to `t'` the mounts stay, in states `ok`, and none becomes read-only. -/
structure Steady (B : Backend σ) (ok : σ → Prop) (t t' : MountTable σ) : Prop where
  points : t'.points = t.points
  ok : t.AllOk ok → t'.AllOk ok
  readOnlyAt : ∀ i, t'.readOnlyAt B i = t.readOnlyAt B i

/-- From `t` to `t'` nothing was done but looking. -/
structure Looks (B : Backend σ) (V : FileView σ κ) (ok : σ → Prop) (t t' : MountTable σ) : Prop
    extends Steady B ok t t' where
  contents : t'.contents V = t.contents V

/-- Nor was a handle opened or closed. -/
structure Peeks (B : Backend σ) (V : FileView σ κ) (ok : σ → Prop) (t t' : MountTable σ) : Prop
    extends Looks B V ok t t' where
  handles : t'.handles = t.handles
  root : t'.root = t.root

/-- From `t` to `t'` the mounts stay, and with them the kind of what is at each place. -/
structure Reshapes (B : Backend σ) (V : FileView σ κ) (ok : σ → Prop) (t t' : MountTable σ) : Prop
    extends Steady B ok t t' where
  kind : ∀ q, (t'.contents V q).map Content.kind = (t.contents V q).map Content.kind

/-- The handles but `h` are those of before, and so is the next one of the root. -/
structure SameHandles (h : ℕ) (t t' : MountTable σ) : Prop where
  lookup : ∀ k, k ≠ h → t'.handles.lookup k = t.handles.lookup k
  nextHandle : t'.root.nextHandle = t.root.nextHandle

section Kept

variable {t t' t'' : MountTable σ}

protected theorem Steady.trans (h : Steady B ok t t') (h' : Steady B ok t' t'') :
    Steady B ok t t'' :=
  ⟨h'.points.trans h.points, fun hok => h'.ok (h.ok hok),
    fun i => (h'.readOnlyAt i).trans (h.readOnlyAt i)⟩

theorem Steady.resolve (h : Steady B ok t t') (abs : Text) : t'.resolve abs = t.resolve abs := by
  unfold MountTable.resolve
  rw [h.points]

theorem Steady.place (h : Steady B ok t t') (abs : Text) :
    t'.place lower V abs = t.place lower V abs := by
  unfold MountTable.place
  rw [h.resolve]

theorem Steady.writable_iff (h : Steady B ok t t') (q : Place κ) :
    t'.Writable B q ↔ t.Writable B q := by
  cases q with
  | root key => exact Iff.rfl
  | overlay i node =>
    show t'.readOnlyAt B i = some false ↔ t.readOnlyAt B i = some false
    rw [h.readOnlyAt]

protected theorem Looks.trans (h : Looks B V ok t t') (h' : Looks B V ok t' t'') :
    Looks B V ok t t'' :=
  ⟨h.toSteady.trans h'.toSteady, h'.contents.trans h.contents⟩

protected theorem Peeks.refl : Peeks B V ok t t := ⟨⟨⟨rfl, id, fun _ => rfl⟩, rfl⟩, rfl, rfl⟩

protected theorem Peeks.trans (h : Peeks B V ok t t') (h' : Peeks B V ok t' t'') :
    Peeks B V ok t t'' :=
  ⟨h.toLooks.trans h'.toLooks, h'.handles.trans h.handles, h'.root.trans h.root⟩

/-- To look leaves the kinds as they are. -/
theorem Looks.reshapes (h : Looks B V ok t t') : Reshapes B V ok t t' :=
  ⟨h.toSteady, fun q => by rw [h.contents]⟩

protected theorem Reshapes.trans (h : Reshapes B V ok t t') (h' : Reshapes B V ok t' t'') :
    Reshapes B V ok t t'' :=
  ⟨h.toSteady.trans h'.toSteady, fun q => (h'.kind q).trans (h.kind q)⟩

protected theorem SameHandles.trans {h : ℕ} (hs : SameHandles h t t') (hs' : SameHandles h t' t'') :
    SameHandles h t t'' :=
  ⟨fun k hk => (hs'.lookup k hk).trans (hs.lookup k hk), hs'.nextHandle.trans hs.nextHandle⟩

end Kept

/-! ## Operations of a mount -/

section OnFs

variable {t : MountTable σ} {α : Type} {i : ℕ} {m : Mount σ} {absent : α} {f : σ → α × σ}

variable (hm : t.overlays[i]? = some m)

include hm

theorem onFs_eq : t.onFs i absent f = ((f m.fs).1, t.setFs i (f m.fs).2) := by
  unfold onFs
  rw [hm]

/-- What is at a node of the mount afterwards. -/
theorem contents_onFs_same (node : κ) :
    (t.onFs i absent f).2.contents V (.overlay i node) = V.content (f m.fs).2 node := by
  rw [onFs_eq hm, contents_setFs_overlay, if_pos rfl, hm, Option.bind_some]

/-- What an operation of a mount does to a place of another one, or to its own. -/
theorem contents_onFs (q : Place κ) : (t.onFs i absent f).2.contents V q = t.contents V q ∨
      ∃ node, q = .overlay i node ∧
        (t.onFs i absent f).2.contents V q = V.content (f m.fs).2 node ∧
        t.contents V q = V.content m.fs node := by
  cases q with
  | root key =>
    rw [onFs_eq hm]
    exact .inl rfl
  | overlay j node =>
    by_cases hij : i = j
    · subst hij
      exact .inr ⟨node, rfl, contents_onFs_same hm node, contents_overlay hm node⟩
    · rw [onFs_eq hm, contents_setFs_overlay, if_neg hij]
      exact .inl rfl

/-- An operation that changes one node. -/
theorem contents_onFs_update [DecidableEq κ] {node : κ} {c : Option Content}
    (h : V.content (f m.fs).2 = update (V.content m.fs) node c) : (t.onFs i absent f).2.contents V =
      update (t.contents V) (.overlay i node) c := by
  funext q
  by_cases hq : q = .overlay i node
  · rw [hq, contents_onFs_same hm, h, update_self, update_self]
  rw [update_of_ne hq]
  obtain hsame | ⟨r, rfl, hnew, hold⟩ := contents_onFs hm q
  · exact hsame
  · have hr : r ≠ node := fun hr => hq (by rw [hr])
    rw [hnew, h, update_of_ne hr, hold]

/-- An operation that keeps what is in the mount. -/
theorem contents_onFs_keep (h : V.content (f m.fs).2 = V.content m.fs) :
    (t.onFs i absent f).2.contents V = t.contents V := by
  funext q
  obtain hsame | ⟨r, -, hnew, hold⟩ := contents_onFs hm q
  · exact hsame
  · rw [hnew, h, hold]

/-- An operation that keeps the kinds of what is in the mount. -/
theorem kind_onFs (h : ∀ node, (V.content (f m.fs).2 node).map Content.kind =
      (V.content m.fs node).map Content.kind) (q : Place κ) :
    ((t.onFs i absent f).2.contents V q).map Content.kind =
      (t.contents V q).map Content.kind := by
  obtain hsame | ⟨r, -, hnew, hold⟩ := contents_onFs hm q
  · rw [hsame]
  · rw [hnew, h, hold]

omit hm

/-- A step of one file system that keeps it in order keeps all. -/
theorem allOk_onFs (h : ∀ fs, ok fs → ok (f fs).2) (hok : t.AllOk ok) :
    (t.onFs i absent f).2.AllOk ok := by
  intro m' hm'
  unfold onFs at hm'
  split at hm'
  next m hm =>
    obtain ⟨j, hj⟩ := mem_iff_getElem?.1 hm'
    change (t.overlays.modify i fun m => { m with fs := _ })[j]? = _ at hj
    rw [List.getElem?_modify] at hj
    obtain ⟨m0, hm0, rfl⟩ := map_eq_some_iff.1 hj
    split
    next hij =>
      rw [← hij, hm] at hm0
      cases hm0
      exact h m.fs (hok m (mem_of_getElem? hm))
    next => exact hok m0 (mem_of_getElem? hm0)
  next => exact hok m' hm'

/-- A steady step of one file system is a steady step of the table. -/
theorem steady_onFs (h : ∀ fs, B.Steady ok fs (f fs).2) : Steady B ok t (t.onFs i absent f).2 := by
  refine ⟨points_onFs i absent f, allOk_onFs fun fs => (h fs).1, ?_⟩
  intro j
  unfold onFs readOnlyAt
  split
  next m hm =>
    change ((t.overlays.modify i fun m => { m with fs := _ })[j]?).map _ = _
    rw [List.getElem?_modify]
    by_cases hij : i = j
    · subst hij
      simpa [hm] using (h m.fs).2
    · simp [hij]
  next => rfl

/-- An operation that only looks. -/
theorem looks_onFs (h : ∀ fs, B.Steady ok fs (f fs).2)
    (hview : ∀ fs, V.content (f fs).2 = V.content fs) : Looks B V ok t (t.onFs i absent f).2 :=
  ⟨steady_onFs h, (keeps_onFs i absent hview).contents⟩

theorem steady_record (abs : Text) : Steady B ok t (t.record abs) := ⟨rfl, id, fun _ => rfl⟩

theorem looks_record (abs : Text) : Looks B V ok t (t.record abs) := ⟨steady_record abs, rfl⟩

@[simp] theorem handles_onFs : (t.onFs i absent f).2.handles = t.handles := by
  unfold onFs
  split <;> rfl

@[simp] theorem routed_onFs : (t.onFs i absent f).2.routed = t.routed := by
  unfold onFs
  split <;> rfl

@[simp] theorem root_onFs : (t.onFs i absent f).2.root = t.root := by
  unfold onFs
  split <;> rfl

@[simp] theorem nextHandle_onFs : (t.onFs i absent f).2.nextHandle = t.nextHandle := by
  unfold onFs
  split <;> rfl

end OnFs

/-! ## Operations of the table -/

section Operations

variable {t : MountTable σ} {q : Place κ} {b : Bytes} {h pos : ℕ} {access : FileAccess}

/-- To enter a handle is nothing but looking. -/
theorem looks_addHandle (i : ℕ) (rel : Text) (access : FileAccess) :
    Looks B V ok t (t.addHandle i rel access).2 := ⟨⟨rfl, id, fun _ => rfl⟩, rfl⟩

variable {t' : MountTable σ}

/-- A change of the root alone. -/
theorem steady_root (hover : t'.overlays = t.overlays) : Steady B ok t t' := by
  refine ⟨?_, ?_, ?_⟩
  · unfold points
    rw [hover]
  · intro hok
    unfold AllOk
    rw [hover]
    exact hok
  intro i
  unfold readOnlyAt
  rw [hover]

/-- A change of the root that keeps its files. -/
theorem looks_root (hover : t'.overlays = t.overlays)
    (hfile : ∀ key, t'.root.file key = t.root.file key) : Looks B V ok t t' := by
  refine ⟨steady_root hover, ?_⟩
  funext q
  cases q with
  | root key => exact congrArg (Option.map Content.file) (hfile key)
  | overlay i node =>
    show (t'.overlays[i]?.bind _) = t.overlays[i]?.bind _
    rw [hover]

/-! ### Handles -/

/-- The number of handles of the root that it takes to open a file at the place. -/
def rootHandles : Place κ → ℕ
  | .root _ => 1
  | .overlay _ _ => 0

theorem room_succ (hroom : t.Room (n + 1)) :
    ∀ j < n, t.handles.lookup
      ((handleBase + (t.root.nextHandle + 1) % 2 ^ 32 + j) % 2 ^ 32) = none := by
  intro j hj
  have hnext := hroom (j + 1) (by omega)
  have heq : (handleBase + (t.root.nextHandle + 1) % 2 ^ 32 + j) % 2 ^ 32 =
      (handleBase + t.root.nextHandle + (j + 1)) % 2 ^ 32 := by omega
  rw [heq]
  exact hnext

/-- The room for handles depends on the handles alone. -/
theorem Room.of_eq (hhandles : t'.handles = t.handles)
    (hnext : t'.root.nextHandle = t.root.nextHandle) (hroom : t.Room n) : t'.Room n := by
  unfold Room
  rw [hhandles, hnext]
  exact hroom

/-- To look without opening a file leaves the room for handles as it is. -/
theorem Peeks.room_iff (hpeek : Peeks B V ok t t') : t'.Room n ↔ t.Room n :=
  ⟨Room.of_eq hpeek.handles.symm (by rw [hpeek.root]),
    Room.of_eq hpeek.handles (by rw [hpeek.root])⟩

/-- The handle that is given out for a file, and what is left when it is closed again. -/
structure Handle (V : FileView σ κ) (t : MountTable σ) (n h : ℕ) (q : Place κ)
    (access : FileAccess) : Prop where
  opened : t.OpenedAt V h q 0 access
  room : ∀ t', SameHandles h t t' → t'.handles.lookup h = none → t'.Room n

/-- The root gives out its next handle. -/
theorem open_root (n : ℕ) (hroom : t.Room (n + 1)) {p key : Text}
    (hq : t.place lower V p = .root key) (hopens : (t.root.file key).isSome ∨ access.allowsWrite) :
    ∃ h t', t.open lower B p access = (some h, t') ∧ t'.overlays = t.overlays ∧
      t'.root = (t.root.open lower p access).2 ∧ Handle V t' n h (.root key) access := by
  obtain ⟨hres, rfl⟩ := resolve_of_place_root hq
  obtain ⟨files, hopen⟩ := open_eq hopens
  unfold MountTable.open
  rw [hres]
  rw [hopen]
  refine ⟨_, _, rfl, rfl, rfl, ⟨hroom 0 (by omega), lookup_insert _⟩, ?_⟩
  rintro t'' ⟨hlookup, hnext⟩ hclosed j hj
  rw [hnext]
  by_cases hk : (handleBase + (t.root.nextHandle + 1) % 2 ^ 32 + j) % 2 ^ 32 =
      (handleBase + t.root.nextHandle) % 2 ^ 32
  · exact hk ▸ hclosed
  · exact (hlookup _ hk).trans (room_succ hroom j hj)

/-- A handle of a mount. -/
theorem handle_addHandle (hroom : t.Room n) (i : ℕ) (rel : Text) :
    ∃ h t', t.addHandle i rel access = (some h, t') ∧ Looks B V ok t t' ∧
      Handle V t' n h (.overlay i (V.node rel)) access := by
  refine ⟨_, _, rfl, looks_addHandle i rel access, ⟨rel, rfl, lookup_insert _⟩, ?_⟩
  rintro t'' ⟨hlookup, hnext⟩ hclosed j hj
  rw [hnext]
  by_cases hk : (handleBase + t.root.nextHandle + j) % 2 ^ 32 =
      (overlayHandleBase + t.nextHandle) % 2 ^ 32
  · exact hk ▸ hclosed
  · exact ((hlookup _ hk).trans (lookup_insert_ne hk)).trans (hroom j hj)

/-- To close a handle is nothing but looking. -/
theorem looks_close (h : ℕ) : Looks B V ok t (t.close h).2 := by
  unfold close
  split
  · exact looks_root rfl fun _ => rfl
  · exact looks_root rfl fun _ => rfl

/-- To close a handle takes it away. -/
theorem close_opened (hopened : t.OpenedAt V h q pos access) :
    SameHandles h t (t.close h).2 ∧ (t.close h).2.handles.lookup h = none := by
  unfold close
  cases q with
  | root key =>
    rw [hopened.1]
    exact ⟨⟨fun _ _ => rfl, rfl⟩, hopened.1⟩
  | overlay i node =>
    obtain ⟨rel, -, (hlookup : t.handles.lookup h = some _)⟩ := hopened
    rw [hlookup]
    exact ⟨⟨fun k hk => lookup_erase_ne hk, rfl⟩, lookup_erase _ _⟩

variable [DecidableEq κ] (hB : B.Reliable V ok)

include hB

/-! ### Lookups -/

/-- What `open` and `stat_path` learn of a path in a mount before they do anything. -/
theorem stat_routed (hok : t.AllOk ok) {p rel : Text} (hres : t.resolve p = some (i, rel)) :
    ∃ attrs t', ((t.record p).onFs i none fun fs => B.stat fs rel) = (attrs, t') ∧
      attrs.map Attrs.kind = (t.contents V (.overlay i (V.node rel))).map Content.kind ∧
      Peeks B V ok t t' := by
  obtain ⟨m, hm⟩ := exists_mount_of_resolve hres
  have hkind : ((t.record p).onFs i none fun fs => B.stat fs rel).1.map Attrs.kind =
      (t.contents V (.overlay i (V.node rel))).map Content.kind := by
    rw [onFs_eq (t := t.record p) hm, contents_overlay hm]
    exact hB.stat_kind m.fs rel (hok m (mem_of_getElem? hm))
  have hlook : Looks B V ok t ((t.record p).onFs i none fun fs => B.stat fs rel).2 :=
    (looks_record p).trans
      (looks_onFs (fun fs => hB.stat_steady fs rel) fun fs => hB.stat_keeps fs rel)
  have hpeek : Peeks B V ok t ((t.record p).onFs i none fun fs => B.stat fs rel).2 :=
    ⟨hlook, handles_onFs, root_onFs⟩
  exact ⟨_, _, rfl, hkind, hpeek⟩

/-- `stat_path` reports a link where there is one. -/
theorem statPath_spec (hok : t.AllOk ok) (p : Text) :
    ∃ attrs t', t.statPath lower B p = (attrs, t') ∧
      (attrs.map Attrs.kind = some .symlink ↔
        ∃ target, t.contents V (t.place lower V p) = some (.symlink target)) ∧
      Peeks B V ok t t' := by
  unfold statPath onPath
  cases hq : t.place lower V p with
  | root key =>
    -- The root has no links.
    rw [(resolve_of_place_root hq).1]
    refine ⟨_, _, rfl, ?_, ⟨looks_record p, rfl, rfl⟩⟩
    refine iff_of_false ?_ ?_
    · cases t.root.statNode lower p with
      | none => simp
      | some node =>
        obtain ⟨isDir, size⟩ := node
        cases isDir <;> simp
    · rintro ⟨target, hlink⟩
      obtain ⟨b, -, hb⟩ := map_eq_some_iff.1 hlink
      cases hb
  | overlay i node =>
    obtain ⟨rel, hres, rfl⟩ := resolve_of_place hq
    obtain ⟨attrs, t', hstat, hkind, hpeek⟩ := stat_routed hB hok hres
    rw [hres]
    refine ⟨attrs, t', hstat, ?_, hpeek⟩
    rw [hkind]
    cases t.contents V (.overlay i (V.node rel)) with
    | none => simp
    | some c => cases c <;> simp [Content.kind]

/-- `readlink_path` reads the link that is there. -/
theorem readlinkPath_spec (hok : t.AllOk ok) {p target : Text}
    (hp : t.contents V (t.place lower V p) = some (.symlink target)) :
    ∃ t', t.readlinkPath B p = (.ok target, t') ∧ Peeks B V ok t t' := by
  unfold readlinkPath onPath
  cases hq : t.place lower V p with
  | root key =>
    rw [hq] at hp
    obtain ⟨b, -, hb⟩ := map_eq_some_iff.1 hp
    cases hb
  | overlay i node =>
    obtain ⟨rel, hres, rfl⟩ := resolve_of_place hq
    obtain ⟨m, hm⟩ := exists_mount_of_resolve hres
    rw [hq, contents_overlay hm] at hp
    have hread := hB.readlink_symlink m.fs rel target (hok m (mem_of_getElem? hm)) hp
    have hlook : Looks B V ok t ((t.record p).onFs i (.error .other)
        fun fs => B.readlink fs rel).2 :=
      (looks_record p).trans
        (looks_onFs (fun fs => hB.readlink_steady fs rel) fun fs => hB.readlink_keeps fs rel)
    rw [hres]
    refine ⟨_, Prod.ext ?_ rfl, ⟨hlook, handles_onFs, root_onFs⟩⟩
    dsimp only
    rw [onFs_eq (t := t.record p) hm]
    exact hread

omit hB in
/-- The path that the links from a path on lead to, of which at most `n` are followed. -/
def leadsTo (lower : Char → Text) (V : FileView σ κ) (t : MountTable σ) : ℕ → Text → Text
  | 0, p => p
  | n + 1, p => match t.contents V (t.place lower V p) with
    | some (.symlink target) => leadsTo lower V t n (linkTarget p target)
    | _ => p

omit hB [DecidableEq κ] in
/-- Links lead to the same path after looking. -/
theorem Looks.leadsTo {t' : MountTable σ} (hlook : Looks B V ok t t') (n : ℕ) (p : Text) :
    t'.leadsTo lower V n p = t.leadsTo lower V n p := by
  induction n generalizing p with
  | zero => rfl
  | succ n ih =>
    unfold MountTable.leadsTo
    rw [hlook.contents, hlook.place]
    split
    · exact ih _
    · rfl

/-- The loop of `resolve_symlinks` returns the path that the links lead to. -/
theorem followLinks_eq (n : ℕ) (hok : t.AllOk ok) (p : Text) :
    ∃ t', followLinks lower B n p t = (t.leadsTo lower V n p, t') ∧ Peeks B V ok t t' := by
  induction n generalizing p t with
  | zero => exact ⟨t, rfl, .refl⟩
  | succ n ih =>
    obtain ⟨attrs, t1, hstat, hlink, hpeek⟩ := statPath_spec hB hok p
    rw [followLinks, leadsTo, hstat]
    dsimp only
    by_cases htarget : ∃ target, t.contents V (t.place lower V p) = some (.symlink target)
    · rw [if_pos (hlink.2 htarget)]
      obtain ⟨target, htarget⟩ := htarget
      have htarget1 : t1.contents V (t1.place lower V p) = some (.symlink target) := by
        rw [hpeek.contents, hpeek.place]
        exact htarget
      obtain ⟨t2, hread, hpeek2⟩ := readlinkPath_spec hB (hpeek.ok hok) htarget1
      have hall := hpeek.trans hpeek2
      obtain ⟨t', hrest, hpeek'⟩ := ih (hall.ok hok) (linkTarget p target)
      rw [hall.leadsTo] at hrest
      rw [hread, htarget]
      exact ⟨t', hrest, hall.trans hpeek'⟩
    · rw [if_neg (mt hlink.1 htarget)]
      refine ⟨t1, ?_, hpeek⟩
      split
      next target heq => exact absurd ⟨target, heq⟩ htarget
      next => rfl

/-- `resolve_symlinks` follows up to sixteen links. -/
theorem resolveSymlinks_eq (hok : t.AllOk ok) (p : Text) :
    ∃ t', t.resolveSymlinks lower B p = (t.leadsTo lower V 16 (normAbs p), t') ∧
      Peeks B V ok t t' :=
  followLinks_eq hB 16 hok (normAbs p)

/-! ### Opening -/

omit hB [DecidableEq κ] in
/-- No file can be created under the path, which lies in a mount that is read-only or does not
create it. -/
def Refuses (B : Backend σ) (t : MountTable σ) (p : Text) : Prop :=
  ∃ i rel m, t.resolve p = some (i, rel) ∧ t.overlays[i]? = some m ∧
    (B.readOnly m.fs = true ∨ (B.create m.fs rel 0o644).1 ≠ .ok ())

/-- Whether a file can be created depends on the mounts and on the files. -/
theorem refuses_of_eq {t' : MountTable σ} (hok : t.AllOk ok) (hok' : t'.AllOk ok)
    (hpoints : t'.points = t.points) (hreadOnly : ∀ i, t'.readOnlyAt B i = t.readOnlyAt B i)
    (hcontents : t'.contents V = t.contents V) (h : t.Refuses B p) : t'.Refuses B p := by
  obtain ⟨i, rel, m, hres, hm, hrefuses⟩ := h
  have hres' : t'.resolve p = some (i, rel) := by
    unfold resolve
    rw [hpoints]
    exact hres
  obtain ⟨m', hm'⟩ := exists_mount_of_resolve hres'
  have hro : B.readOnly m'.fs = B.readOnly m.fs := by
    have hsame := hreadOnly i
    unfold readOnlyAt at hsame
    rwa [hm, hm', map_some, map_some, Option.some.injEq] at hsame
  have hcontent : V.content m'.fs = V.content m.fs := by
    funext node
    rw [← contents_overlay hm', ← contents_overlay hm, hcontents]
  refine ⟨i, rel, m', hres', hm', hrefuses.imp (fun h => hro.trans h) fun hno hyes => hno ?_⟩
  exact hB.create_answer m'.fs m.fs rel _ (hok' m' (mem_of_getElem? hm'))
    (hok m (mem_of_getElem? hm)) hcontent hro hyes

/-- To look does not change whether a file can be created. -/
theorem Looks.refuses_iff {t' : MountTable σ} (hlook : Looks B V ok t t') (hok : t.AllOk ok) :
    t'.Refuses B p ↔ t.Refuses B p :=
  ⟨refuses_of_eq hB (hlook.ok hok) hok hlook.points.symm (fun i => (hlook.readOnlyAt i).symm)
      hlook.contents.symm,
    refuses_of_eq hB hok (hlook.ok hok) hlook.points hlook.readOnlyAt hlook.contents⟩

/-- To open what is there gives a handle on it. -/
theorem open_present (hok : t.AllOk ok) {c : Content}
    (hp : t.contents V (t.place lower V p) = some c)
    (hroom : t.Room (n + rootHandles (t.place lower V p))) (access : FileAccess) :
    ∃ h t', t.open lower B p access = (some h, t') ∧ Looks B V ok t t' ∧
      Handle V t' n h (t.place lower V p) access := by
  cases hq : t.place lower V p with
  | root key =>
    rw [hq] at hp hroom
    obtain ⟨b', hfile, -⟩ := map_eq_some_iff.1 hp
    obtain ⟨h, t', hopen, hover, hroot, hhandle⟩ :
      ∃ h t', t.open lower B p access = (some h, t') ∧ _ :=
      open_root n hroom hq (.inl (by rw [hfile]; rfl))
    refine ⟨h, t', hopen, looks_root hover fun key' => ?_, hhandle⟩
    obtain ⟨-, rfl⟩ := resolve_of_place_root hq
    rw [hroot, file_open, if_neg]
    rintro ⟨rfl, hnone, -⟩
    simp [hfile] at hnone
  | overlay i node =>
    obtain ⟨rel, hres, rfl⟩ := resolve_of_place hq
    obtain ⟨attrs, t1, hstat, hkind, hpeek⟩ := stat_routed hB hok hres
    rw [hq] at hp hroom
    rw [hp] at hkind
    have hroom' : t1.Room n := hpeek.room_iff.2 hroom
    unfold MountTable.open
    rw [hres]
    dsimp only
    rw [hstat]
    rw [if_pos (by
      cases attrs with
      | none => cases hkind
      | some a => rfl)]
    obtain ⟨h, t', hadd, hlook', hhandle⟩ := handle_addHandle hroom' i rel
    exact ⟨h, t', hadd, hpeek.toLooks.trans hlook', hhandle⟩

/-- To open a file for writing that is not there and cannot be created. -/
theorem open_refused (hok : t.AllOk ok) (hp : t.contents V (t.place lower V p) = none)
    (hrefuses : t.Refuses B p) :
    ∃ t', t.open lower B p .write = (none, t') ∧ Looks B V ok t t' := by
  obtain ⟨i, rel, m, hres, hm, hno⟩ := hrefuses
  have hplace : t.place lower V p = .overlay i (V.node rel) := by
    unfold place
    rw [hres]
  obtain ⟨attrs, t1, hstat, hkind, hpeek⟩ := stat_routed hB hok hres
  rw [hplace] at hp
  rw [hp] at hkind
  obtain rfl := map_eq_none_iff.1 hkind
  obtain ⟨i', rel', m', hres', hm', hno'⟩ :=
    (hpeek.toLooks.refuses_iff hB hok).2 ⟨i, rel, m, hres, hm, hno⟩
  rw [hpeek.resolve, hres] at hres'
  cases hres'
  unfold MountTable.open
  rw [hres]
  dsimp only
  rw [hstat, if_neg (by simp), hm', map_some]
  by_cases hro : B.readOnly m'.fs = true
  · rw [if_pos (.inr (by rw [hro]))]
    exact ⟨t1, rfl, hpeek.toLooks⟩
  rw [if_neg (by simpa [FileAccess.allowsWrite] using hro), onFs_eq hm']
  cases hcreate : (B.create m'.fs rel 0o644).1 with
  | ok u => exact absurd hcreate (hno'.resolve_left hro)
  | error e =>
    have hsteady : Steady B ok t1
        (t1.onFs i (.error .other) fun fs => B.create fs rel 0o644 : IoResult Unit × _).2 :=
      steady_onFs fun fs => hB.create_steady fs rel _
    have hview : (t1.onFs i (.error .other) fun fs => B.create fs rel 0o644 :
        IoResult Unit × _).2.contents V = t1.contents V :=
      contents_onFs_keep hm' (hB.create_error _ _ _ e hcreate)
    rw [onFs_eq hm'] at hsteady hview
    exact ⟨_, rfl, hpeek.toSteady.trans hsteady, hview.trans hpeek.contents⟩

omit hB [DecidableEq κ] in
/-- Where a file can be created, files can be written. -/
theorem writable_of_not_refuses (h : ¬ t.Refuses B p) : t.Writable B (t.place lower V p) := by
  cases hq : t.place lower V p with
  | root key => exact trivial
  | overlay i node =>
    obtain ⟨rel, hres, rfl⟩ := resolve_of_place hq
    obtain ⟨m, hm⟩ := exists_mount_of_resolve hres
    rw [writable_overlay_iff hm]
    by_contra hro
    exact h ⟨i, rel, m, hres, hm, .inl (by simpa using hro)⟩

/-- To open a file for writing that is not there creates it, empty. -/
theorem open_created (hok : t.AllOk ok) (hp : t.contents V (t.place lower V p) = none)
    (hcreates : ¬ t.Refuses B p) (hroom : t.Room (n + rootHandles (t.place lower V p))) :
    ∃ h t', t.open lower B p .write = (some h, t') ∧ Steady B ok t t' ∧
      t'.contents V = update (t.contents V) (t.place lower V p) (some (.file [])) ∧
      Handle V t' n h (t.place lower V p) .write := by
  cases hq : t.place lower V p with
  | root key =>
    rw [hq] at hp hroom
    obtain ⟨h, t', hopen, hover, hroot, hhandle⟩ :
      ∃ h t', t.open lower B p .write = (some h, t') ∧ _ :=
      open_root n hroom hq (.inr (rfl : FileAccess.write.allowsWrite = true))
    have hnone : t.root.file key = none := map_eq_none_iff.1 hp
    obtain ⟨-, rfl⟩ := resolve_of_place_root hq
    refine ⟨h, t', hopen, steady_root hover, ?_, hhandle⟩
    funext q
    cases q with
    | root key =>
      show (t'.root.file key).map _ = _
      rw [hroot, file_open]
      by_cases hkey : key = normalizePath lower p
      · subst hkey
        rw [if_pos ⟨rfl, by rw [hnone]; rfl, rfl⟩, update_self]
        rfl
      · rw [if_neg fun h => hkey h.1, update_of_ne (by simpa using hkey)]
        rfl
    | overlay i node =>
      rw [update_of_ne (by simp)]
      show (t'.overlays[i]?.bind _) = t.overlays[i]?.bind _
      rw [hover]
  | overlay i node =>
    obtain ⟨rel, hres, rfl⟩ := resolve_of_place hq
    obtain ⟨attrs, t1, hstat, hkind, hpeek⟩ := stat_routed hB hok hres
    rw [hq] at hp hroom
    rw [hp] at hkind
    obtain rfl := map_eq_none_iff.1 hkind
    have hres1 := (hpeek.resolve p).trans hres
    obtain ⟨m, hm⟩ := exists_mount_of_resolve hres1
    -- The lookup does not change that the file can be created.
    rw [← hpeek.toLooks.refuses_iff hB hok] at hcreates
    have hro : B.readOnly m.fs = false := by
      by_contra hro
      exact hcreates ⟨i, rel, m, hres1, hm, .inl (by simpa using hro)⟩
    have hcreate : (B.create m.fs rel 0o644).1 = .ok () := by
      by_contra hno
      exact hcreates ⟨i, rel, m, hres1, hm, .inr hno⟩
    have hsteady : Steady B ok t1
        (t1.onFs i (.error .other) fun fs => B.create fs rel 0o644 : IoResult Unit × _).2 :=
      steady_onFs fun fs => hB.create_steady fs rel _
    have hview : (t1.onFs i (.error .other) fun fs => B.create fs rel 0o644 :
        IoResult Unit × _).2.contents V =
        update (t1.contents V) (.overlay i (V.node rel)) (some (.file [])) := by
      refine contents_onFs_update hm ?_
      rw [hB.create_ok _ _ _ hcreate, ← contents_overlay hm, hpeek.contents, hp, getD_none]
    have hroom' : (t1.onFs i (.error .other) fun fs => B.create fs rel 0o644 :
        IoResult Unit × _).2.Room n :=
      Room.of_eq (handles_onFs.trans hpeek.handles) (by rw [root_onFs, hpeek.root]) hroom
    unfold MountTable.open
    rw [hres]
    dsimp only
    rw [hstat, if_neg (by simp), hm, map_some, if_neg (by simp [FileAccess.allowsWrite, hro])]
    rw [onFs_eq hm] at hsteady hview hroom' ⊢
    rw [hcreate]
    obtain ⟨h, t', hadd, hlook', hhandle⟩ := handle_addHandle hroom' i rel
    refine ⟨h, t', hadd, (hpeek.toSteady.trans hsteady).trans hlook'.toSteady, ?_, hhandle⟩
    rw [hlook'.contents, hview, hpeek.contents]

/-- To open a file for reading changes nothing. -/
theorem looks_open_read (p : Text) : Looks B V ok t (t.open lower B p .read).2 := by
  unfold MountTable.open
  split
  next hres =>
    refine looks_root rfl fun key => ?_
    show (t.root.open lower p .read).2.file key = t.root.file key
    rw [file_open, if_neg]
    rintro ⟨-, -, hwrite⟩
    cases hwrite
  next i rel hres =>
    have hlook : Looks B V ok t ((t.record p).onFs i none fun fs => B.stat fs rel).2 :=
      (looks_record p).trans
        (looks_onFs (fun fs => hB.stat_steady fs rel) fun fs => hB.stat_keeps fs rel)
    dsimp only
    split
    · exact hlook.trans (looks_addHandle i rel .read)
    · rw [if_pos (.inl (by decide))]
      exact hlook

/-- To open a file for reading that is not there. -/
theorem open_read_absent (hok : t.AllOk ok) (hp : t.contents V (t.place lower V p) = none) :
    (t.open lower B p .read).1 = none := by
  unfold MountTable.open
  cases hq : t.place lower V p with
  | root key =>
    obtain ⟨hres, rfl⟩ := resolve_of_place_root hq
    rw [hq] at hp
    have hnone : t.root.file (normalizePath lower p) = none := map_eq_none_iff.1 hp
    rw [hres]
    unfold VirtualFs.open
    rw [if_pos ⟨by rw [hnone]; rfl, by decide⟩]
  | overlay i node =>
    obtain ⟨rel, hres, rfl⟩ := resolve_of_place hq
    obtain ⟨attrs, t1, hstat, hkind, -⟩ := stat_routed hB hok hres
    rw [hq] at hp
    rw [hp] at hkind
    obtain rfl := map_eq_none_iff.1 hkind
    rw [hres]
    dsimp only
    rw [hstat, if_neg (by simp), if_pos (.inl (by decide))]

/-! ### Reading -/

/-- To read from a handle changes nothing but its position. -/
theorem looks_readHandle (h len : ℕ) : Looks B V ok t (t.readHandle B h len).2 := by
  unfold readHandle
  split
  · refine looks_root rfl fun key => ?_
    show (t.root.readHandle h len).2.file key = _
    unfold VirtualFs.readHandle
    repeat' split
    all_goals rfl
  next o _ =>
  split
  · exact looks_root rfl fun _ => rfl
  have hlook : Looks B V ok t
      (t.onFs o.mount (.error .other) fun fs => B.readAt fs o.path o.pos len).2 :=
    looks_onFs (fun fs => hB.readAt_steady fs _ _ _) fun fs => hB.readAt_keeps fs _ _ _
  dsimp only
  split
  · exact hlook
  · exact hlook.trans (looks_root rfl fun _ => rfl)

/-- To read from a handle gives the bytes at its position. -/
theorem readHandle_file (hok : t.AllOk ok) (hopened : t.OpenedAt V h q pos access)
    (hread : access.allowsRead) (hq : t.contents V q = some (.file b)) (hpos : pos ≤ b.length)
    (len : ℕ) :
    ∃ t', t.readHandle B h len = (some ((b.drop pos).take len), t') ∧
      t'.OpenedAt V h q (pos + ((b.drop pos).take len).length) access ∧ SameHandles h t t' := by
  unfold readHandle
  cases q with
  | root key =>
    obtain ⟨hnone, hsome⟩ := hopened
    obtain ⟨b', hfile, hb⟩ := map_eq_some_iff.1 hq
    cases hb
    rw [hnone]
    unfold VirtualFs.readHandle
    rw [hsome]
    dsimp only
    rw [if_neg (by simp [hread]), hfile]
    dsimp only
    split
    next hend =>
      have hnil : b.drop pos = [] := drop_eq_nil_of_le hend
      refine ⟨_, rfl, ⟨hnone, ?_⟩, fun _ _ => rfl, rfl⟩
      rw [hnil, take_nil, length_nil, Nat.add_zero]
      exact hsome
    next => exact ⟨_, rfl, ⟨hnone, lookup_insert _⟩, fun _ _ => rfl, rfl⟩
  | overlay i node =>
    obtain ⟨rel, rfl, (hsome : t.handles.lookup h = some _)⟩ := hopened
    obtain ⟨m, hm, hview⟩ := bind_eq_some_iff.1 hq
    have hok' := hok m (mem_of_getElem? hm)
    rw [hsome]
    dsimp only
    rw [if_neg (by simp [hread]), onFs_eq hm, hB.readAt_file m.fs rel pos len b hok' hview]
    -- The position stays below the size of the file, which is a word.
    have hlt : (pos + ((b.drop pos).take len).length) % 2 ^ 64 =
        pos + ((b.drop pos).take len).length := by
      have hsize := hB.size_lt m.fs (V.node rel) b hok' hview
      refine Nat.mod_eq_of_lt ?_
      rw [length_take, length_drop]
      omega
    refine ⟨_, rfl, ⟨rel, rfl, ?_⟩, ?_, rfl⟩
    · rw [hlt]
      exact lookup_insert _
    · intro k hk
      exact lookup_insert_ne hk

/-- The loop of `read_file` changes nothing. -/
theorem looks_readLoop (h n : ℕ) (out : Bytes) {bytes : Bytes} {t' : MountTable σ}
    (hread : readLoop B h n out t = some (bytes, t')) : Looks B V ok t t' := by
  induction n generalizing t out with
  | zero => cases hread
  | succ n ih =>
    unfold readLoop at hread
    have hstep : Looks B V ok t (t.readHandle B h 0x10000).2 := looks_readHandle hB h 0x10000
    dsimp only at hread
    split at hread
    · cases hread
      exact hstep
    · cases hread
      exact hstep
    · exact hstep.trans (ih _ hread)

/-- The loop of `read_file` reads the rest of the file. -/
theorem readLoop_file (n : ℕ) (out : Bytes) (hok : t.AllOk ok)
    (hopened : t.OpenedAt V h q pos access) (hread : access.allowsRead)
    (hq : t.contents V q = some (.file b)) (hpos : pos ≤ b.length) (hn : b.length - pos < n) :
    ∃ t', readLoop B h n out t = some (out ++ b.drop pos, t') ∧ SameHandles h t t' ∧
      ∃ pos', t'.OpenedAt V h q pos' access := by
  induction n generalizing t pos out with
  | zero => omega
  | succ n ih =>
    obtain ⟨t1, hstep, hopened1, hsame⟩ := readHandle_file hB hok hopened hread hq hpos 0x10000
    have hlook : Looks B V ok t (t.readHandle B h 0x10000).2 := looks_readHandle hB h 0x10000
    rw [hstep] at hlook
    unfold readLoop
    rw [hstep]
    cases hbytes : (b.drop pos).take 0x10000 with
    | nil =>
      have hnil : b.drop pos = [] := by
        cases hdrop : b.drop pos with
        | nil => rfl
        | cons x xs => simp [hdrop] at hbytes
      refine ⟨t1, ?_, hsame, _, hopened1⟩
      rw [hnil, append_nil]
    | cons x xs =>
      have hlen : ((b.drop pos).take 0x10000).length = min 0x10000 (b.length - pos) := by
        rw [length_take, length_drop]
      have hpositive : 0 < ((b.drop pos).take 0x10000).length := by rw [hbytes]; simp
      obtain ⟨t', hrest, hsame', hlast⟩ :=
        ih (out ++ (b.drop pos).take 0x10000) (hlook.ok hok) hopened1 (by rw [hlook.contents, hq])
          (by omega) (by omega)
      refine ⟨t', ?_, hsame.trans hsame', hlast⟩
      have hsplit : (b.drop pos).take 0x10000 ++
          b.drop (pos + ((b.drop pos).take 0x10000).length) = b.drop pos := by
        nth_rewrite 1 [take_eq_take_min]
        rw [length_take, ← drop_drop]
        exact take_append_drop _ _
      rw [append_assoc, hsplit] at hrest
      rw [hbytes] at hrest
      exact hrest

omit hB [DecidableEq κ] in
/-- More rounds of reading do not matter when some are enough. -/
theorem readLoop_mono {m : ℕ} {out : Bytes} {r : Bytes × MountTable σ} (hle : n ≤ m)
    (hread : readLoop B h n out t = some r) : readLoop B h m out t = some r := by
  induction n generalizing t out m with
  | zero => cases hread
  | succ n ih =>
    obtain ⟨m, rfl⟩ : ∃ m', m = m' + 1 := ⟨m - 1, by omega⟩
    unfold readLoop at hread ⊢
    dsimp only at hread ⊢
    split at hread
    · exact hread
    · exact hread
    · exact ih (by omega) hread

omit hB [DecidableEq κ] in
/-- What is read with some rounds is read with more. -/
theorem readFile_mono {rounds m : ℕ} {r : Option Bytes × MountTable σ} (hle : rounds ≤ m)
    (hread : t.readFile lower B rounds p = some r) : t.readFile lower B m p = some r := by
  unfold readFile at hread ⊢
  generalize t.resolveSymlinks lower B p = resolved at hread ⊢
  obtain ⟨target, t1⟩ := resolved
  dsimp only at hread ⊢
  generalize t1.open lower B target .read = opened at hread ⊢
  obtain ⟨handle, t2⟩ := opened
  cases handle with
  | none => exact hread
  | some h =>
    obtain ⟨out, hloop, hrest⟩ := bind_eq_some_iff.1 hread
    exact bind_eq_some_iff.2 ⟨out, readLoop_mono hle hloop, hrest⟩

omit hB [DecidableEq κ] in
/-- What `read_file` finds at a path, behind the links on it. -/
def source (lower : Char → Text) (V : FileView σ κ) (t : MountTable σ) (p : Text) :
    Option Content :=
  t.contents V (t.place lower V (t.leadsTo lower V 16 (normAbs p)))

omit hB [DecidableEq κ] in
/-- To look changes nothing of what `read_file` finds. -/
theorem Looks.source {t' : MountTable σ} (hlook : Looks B V ok t t') (p : Text) :
    t'.source lower V p = t.source lower V p := by
  unfold MountTable.source
  rw [hlook.leadsTo, hlook.place, hlook.contents]

/-- `read_file` changes nothing. -/
theorem looks_readFile (hok : t.AllOk ok) {rounds : ℕ} {data : Option Bytes} {t' : MountTable σ}
    (hread : t.readFile lower B rounds p = some (data, t')) : Looks B V ok t t' := by
  obtain ⟨t1, hresolve, hpeek⟩ : ∃ t1, t.resolveSymlinks lower B p = _ ∧ _ :=
    resolveSymlinks_eq hB hok p
  unfold readFile at hread
  rw [hresolve] at hread
  dsimp only at hread
  have hopen : Looks B V ok t (t1.open lower B (t.leadsTo lower V 16 (normAbs p)) .read).2 :=
    hpeek.toLooks.trans (looks_open_read hB _)
  split at hread
  · cases hread
    exact hopen
  obtain ⟨⟨out, t2⟩, hloop, hrest⟩ := bind_eq_some_iff.1 hread
  cases hrest
  exact (hopen.trans (looks_readLoop hB _ _ _ hloop)).trans (looks_close _)

/-- `read_file` returns nothing where there is nothing. -/
theorem readFile_absent (hok : t.AllOk ok) (hp : t.source lower V p = none) (rounds : ℕ) :
    ∃ t', t.readFile lower B rounds p = some (none, t') := by
  obtain ⟨t1, hresolve, hpeek⟩ : ∃ t1, t.resolveSymlinks lower B p = _ ∧ _ :=
    resolveSymlinks_eq hB hok p
  unfold readFile
  rw [hresolve]
  dsimp only
  rw [open_read_absent hB (hpeek.ok hok) (by rw [hpeek.contents, hpeek.place]; exact hp)]
  exact ⟨_, rfl⟩

/-- `read_file` returns a regular file, given enough rounds. -/
theorem readFile_file (hok : t.AllOk ok) (hp : t.source lower V p = some (.file b)) (hroom : t.Room
      (n + rootHandles (t.place lower V (t.leadsTo lower V 16 (normAbs p)))))
    {rounds : ℕ} (hrounds : b.length < rounds) :
    ∃ t', t.readFile lower B rounds p = some (some b, t') ∧ t'.Room n := by
  obtain ⟨t1, hresolve, hpeek⟩ : ∃ t1, t.resolveSymlinks lower B p = _ ∧ _ :=
    resolveSymlinks_eq hB hok p
  have hfile : t1.contents V (t1.place lower V (t.leadsTo lower V 16 (normAbs p))) =
      some (.file b) := by
    rw [hpeek.contents, hpeek.place]
    exact hp
  have hroom1 : t1.Room
      (n + rootHandles (t1.place lower V (t.leadsTo lower V 16 (normAbs p)))) := by
    rw [hpeek.place]
    exact hpeek.room_iff.2 hroom
  unfold readFile
  rw [hresolve]
  dsimp only
  obtain ⟨h, t2, hopen, hlook2, hhandle⟩ := open_present hB (hpeek.ok hok) hfile hroom1 .read
  rw [hopen]
  dsimp only
  obtain ⟨t3, hloop, hsame3, pos, hopened3⟩ :=
    readLoop_file hB rounds [] (hlook2.ok (hpeek.ok hok)) hhandle.opened rfl
      (by rw [hlook2.contents, hfile]) (by omega) (by omega)
  obtain ⟨hsame4, hclosed⟩ := close_opened hopened3
  rw [hloop]
  exact ⟨_, rfl, hhandle.room _ (hsame3.trans hsame4) hclosed⟩

/-! ### Writing -/

omit hB [DecidableEq κ] in
/-- `truncate_path` leaves the room for handles as it is. -/
theorem room_truncatePath (len : ℕ) (hroom : t.Room n) :
    (t.truncatePath lower B p len).2.Room n := by
  unfold truncatePath onPath
  split
  · exact Room.of_eq (t := t.record p) handles_onFs (by rw [root_onFs]) hroom
  · exact Room.of_eq (t := t) rfl (nextHandle_truncate p len) hroom

/-- `truncate_path` changes no kinds. -/
theorem reshapes_truncatePath (p : Text) (len : ℕ) :
    Reshapes B V ok t (t.truncatePath lower B p len).2 := by
  unfold truncatePath onPath
  split
  next i rel hres =>
    obtain ⟨m, hm⟩ := exists_mount_of_resolve hres
    refine ⟨(steady_record p).trans (steady_onFs fun fs => hB.truncate_steady fs rel len), ?_⟩
    exact kind_onFs (t := t.record p) hm fun node => hB.truncate_kind m.fs rel len node
  next =>
    refine ⟨steady_root rfl, fun q => ?_⟩
    cases q with
    | root key =>
      show (((t.root.truncate lower p len).2.file key).map Content.file).map _ =
        ((t.root.file key).map Content.file).map _
      rw [file_truncate]
      split_ifs with hkey
      · cases t.root.file key <;> rfl
      · rfl
    | overlay i node => rfl

/-- `truncate_path` does nothing where there is nothing, or where files cannot be written. -/
theorem looks_truncatePath (len : ℕ) (hp : t.contents V (t.place lower V p) = none ∨
      ¬ t.Writable B (t.place lower V p)) : Looks B V ok t (t.truncatePath lower B p len).2 := by
  refine ⟨(reshapes_truncatePath hB p len).toSteady, ?_⟩
  unfold truncatePath onPath
  cases hq : t.place lower V p with
  | root key =>
    obtain ⟨hres, rfl⟩ := resolve_of_place_root hq
    rw [hq] at hp
    rw [hres]
    have hnone : t.root.file (normalizePath lower p) = none :=
      map_eq_none_iff.1 (hp.resolve_right fun h => h trivial)
    funext q
    cases q with
    | root key =>
      show ((t.root.truncate lower p len).2.file key).map _ = (t.root.file key).map _
      rw [file_truncate]
      split_ifs with hkey
      · rw [hkey, hnone]
        rfl
      · rfl
    | overlay i node => rfl
  | overlay i node =>
    obtain ⟨rel, hres, rfl⟩ := resolve_of_place hq
    obtain ⟨m, hm⟩ := exists_mount_of_resolve hres
    rw [hq, contents_overlay hm, writable_overlay_iff hm] at hp
    rw [hres]
    refine contents_onFs_keep (t := t.record p) hm (hB.truncate_keeps m.fs rel len ?_)
    exact hp.imp_right fun h => by simpa using h

/-- `truncate_path` of a regular file cuts it off. -/
theorem truncatePath_file (hok : t.AllOk ok) {len : ℕ} (hlen : len < 2 ^ 64)
    (hp : t.contents V (t.place lower V p) = some (.file b))
    (hw : t.Writable B (t.place lower V p)) :
    (t.truncatePath lower B p len).2.contents V (t.place lower V p) =
      some (.file (resized len b)) := by
  unfold truncatePath onPath
  cases hq : t.place lower V p with
  | root key =>
    obtain ⟨hres, rfl⟩ := resolve_of_place_root hq
    rw [hq] at hp
    rw [hres]
    obtain ⟨b', hfile, hb⟩ := map_eq_some_iff.1 hp
    cases hb
    show ((t.root.truncate lower p len).2.file _).map Content.file = _
    rw [file_truncate, if_pos rfl, hfile]
    rfl
  | overlay i node =>
    obtain ⟨rel, hres, rfl⟩ := resolve_of_place hq
    obtain ⟨m, hm⟩ := exists_mount_of_resolve hres
    rw [hq] at hp hw
    rw [hres]
    rw [contents_overlay hm] at hp
    rw [contents_onFs_same (t := t.record p) hm]
    exact hB.truncate_file m.fs rel len b (hok m (mem_of_getElem? hm))
      ((writable_overlay_iff hm).1 hw) hlen hp

/-- To write through a handle changes no kinds, and leaves the other handles alone. -/
theorem writeHandle_opened (hopened : t.OpenedAt V h q 0 .write) (hq : t.contents V q ≠ none)
    (data : Bytes) :
    Reshapes B V ok t (t.writeHandle B h data).2 ∧
      (∃ pos, (t.writeHandle B h data).2.OpenedAt V h q pos .write) ∧
      (¬ t.Writable B q → (t.writeHandle B h data).2.contents V = t.contents V) ∧
      (t.AllOk ok → t.Writable B q → t.contents V q = some (.file []) → data.length < 2 ^ 64 →
        (t.writeHandle B h data).2.contents V q = some (.file data)) := by
  have hover : VirtualFs.overwrite [] 0 data = data := by simp [VirtualFs.overwrite]
  unfold writeHandle
  cases q with
  | root key =>
    obtain ⟨hnone, hsome⟩ := hopened
    obtain ⟨b, hfile⟩ : ∃ b, t.root.file key = some b := by
      cases hfile : t.root.file key with
      | none => simp [contents, hfile] at hq
      | some b => exact ⟨b, rfl⟩
    rw [hnone]
    unfold VirtualFs.writeHandle
    rw [hsome]
    dsimp only
    rw [if_neg (by simp [FileAccess.allowsWrite]), hfile]
    refine ⟨⟨steady_root rfl, fun q => ?_⟩, ⟨_, hnone, lookup_insert _⟩,
      fun hno => absurd trivial hno, fun _ _ hempty _ => ?_⟩
    · cases q with
      | root key' =>
        show (((t.root.files.insert key _).lookup key').map Content.file).map _ =
          ((t.root.file key').map Content.file).map _
        by_cases hkey : key' = key
        · rw [hkey, lookup_insert, hfile]
          rfl
        · rw [lookup_insert_ne hkey]
          rfl
      | overlay i node => rfl
    · show ((t.root.files.insert key _).lookup key).map Content.file = _
      have hb : b = [] := by simpa [contents, hfile] using hempty
      rw [lookup_insert, hb, hover]
      rfl
  | overlay i node =>
    obtain ⟨rel, rfl, (hsome : t.handles.lookup h = some _)⟩ := hopened
    obtain ⟨m, hm⟩ : ∃ m, t.overlays[i]? = some m := by
      cases hm : t.overlays[i]? with
      | none => simp [contents, hm] at hq
      | some m => exact ⟨m, rfl⟩
    have hsteady : Steady B ok t (t.onFs i (.error .other) fun fs => B.writeAt fs rel 0 data).2 :=
      steady_onFs fun fs => hB.writeAt_steady fs rel 0 data
    have hkind : ∀ q,
        ((t.onFs i (.error .other) fun fs => B.writeAt fs rel 0 data).2.contents V q).map
          Content.kind = (t.contents V q).map Content.kind :=
      kind_onFs hm fun node => hB.writeAt_kind m.fs rel 0 data node
    have hkeep : ¬ t.Writable B (.overlay i (V.node rel)) →
        (t.onFs i (.error .other) fun fs => B.writeAt fs rel 0 data).2.contents V =
          t.contents V := by
      intro hno
      rw [writable_overlay_iff hm] at hno
      exact contents_onFs_keep hm (hB.writeAt_keeps m.fs rel 0 data (by simpa using hno))
    have hnew : t.AllOk ok → t.Writable B (.overlay i (V.node rel)) →
        t.contents V (.overlay i (V.node rel)) = some (.file []) → data.length < 2 ^ 64 →
        (t.onFs i (.error .other) fun fs => B.writeAt fs rel 0 data).2.contents V
          (.overlay i (V.node rel)) = some (.file data) := by
      intro hok hw hempty hlen
      rw [contents_overlay hm] at hempty
      rw [contents_onFs_same hm, hB.writeAt_file m.fs rel 0 data [] (hok m (mem_of_getElem? hm))
        ((writable_overlay_iff hm).1 hw) (by omega) hempty, hover]
    have hhandles : (t.onFs i (.error .other) fun fs => B.writeAt fs rel 0 data).2.handles =
        t.handles := handles_onFs
    rw [hsome]
    dsimp only
    rw [if_neg (by simp [FileAccess.allowsWrite])]
    generalize t.onFs i (.error .other) (fun fs => B.writeAt fs rel 0 data) = r
      at hsteady hkind hkeep hnew hhandles ⊢
    obtain ⟨n, t'⟩ := r
    cases n with
    | error e =>
      refine ⟨⟨hsteady, hkind⟩, ⟨0, rel, rfl, ?_⟩, hkeep, hnew⟩
      exact (congrArg (AList.lookup h) hhandles).trans hsome
    | ok n =>
      exact ⟨⟨⟨hsteady.points, hsteady.ok, hsteady.readOnlyAt⟩, hkind⟩,
        ⟨_, rel, rfl, lookup_insert _⟩, hkeep, hnew⟩

/-- `unlink_path` removes what the root has under the path, or a removable regular file. -/
theorem unlinkPath_removes (hok : t.AllOk ok) (hp : (∃ key, t.place lower V p = .root key) ∨
      t.Writable B (t.place lower V p) ∧ ∃ b, t.contents V (t.place lower V p) = some (.file b)) :
    (t.unlinkPath lower B p).2.contents V =
      update (t.contents V) (t.place lower V p) none := by
  unfold unlinkPath onPath
  cases hq : t.place lower V p with
  | root key =>
    obtain ⟨hres, rfl⟩ := resolve_of_place_root hq
    rw [hres]
    funext q
    cases q with
    | root key =>
      show ((t.root.remove lower p).2.file key).map Content.file = _
      rw [file_remove]
      split_ifs with hkey
      · rw [hkey, update_self]
        rfl
      · rw [update_of_ne (by simpa using hkey)]
        rfl
    | overlay i node =>
      rw [update_of_ne (by simp)]
      rfl
  | overlay i node =>
    rw [hq] at hp
    obtain ⟨hw, b, hfile⟩ := hp.resolve_left (by simp)
    obtain ⟨rel, hres, rfl⟩ := resolve_of_place hq
    obtain ⟨m, hm⟩ := exists_mount_of_resolve hres
    rw [hres]
    rw [contents_overlay hm] at hfile
    exact contents_onFs_update (t := t.record p) hm (hB.unlink_file m.fs rel b
      (hok m (mem_of_getElem? hm)) ((writable_overlay_iff hm).1 hw) hfile)

/-- `unlink_path` removes nothing from a read-only mount. -/
theorem unlinkPath_keeps (hp : ¬ t.Writable B (t.place lower V p)) :
    (t.unlinkPath lower B p).2.contents V = t.contents V := by
  unfold unlinkPath onPath
  cases hq : t.place lower V p with
  | root key =>
    rw [hq] at hp
    exact absurd trivial hp
  | overlay i node =>
    obtain ⟨rel, hres, rfl⟩ := resolve_of_place hq
    obtain ⟨m, hm⟩ := exists_mount_of_resolve hres
    rw [hq, writable_overlay_iff hm] at hp
    rw [hres]
    exact contents_onFs_keep (t := t.record p) hm (hB.unlink_keeps m.fs rel (by simpa using hp))

end Operations

end MountTable

end Univdreams.Emulator
