import Univdreams.Elf.RoundTrip

/-!
# Re-layout of an ELF image after an edit

`apply_size_changes` of `src/translate/compile/lower_elf.rs`: when the contents of sections are
replaced by contents of other lengths, every part of the image behind a changed section moves by
the change. The source moves each kind of part by its own piece of code, all with one function that
gives the total change before an old offset.

The program-header table is not among the parts that it moves. `applySizeChanges_tiles_iff` says
what follows: the parts of the new image tile it exactly when there is no program-header table or
the changes before the table cancel.
-/

namespace Univdreams.Elf

open List Shdr64

variable {f : Elf64File} {checks : Bool}

/-- New contents for the sections of a file, one for each. They are in memory with the file, so
their total length fits a signed 64-bit word. -/
structure Replacement (f : Elf64File) where
  data : List Bytes
  length_eq : data.length = f.shdrs.length
  fits : f.file_size + (data.map List.length).sum < 2 ^ 63

/-! ## The source's function -/

/-- The old place of a section and the change of its length. -/
structure Snapshot where
  off : ℕ
  stop : ℕ
  delta : ℤ
  deriving DecidableEq, Repr

/-- The snapshot of one section, taken before any header changes. -/
def snapshotOf (s : Shdr64 × Bytes) : Snapshot :=
  if s.1.occupiesFile then
    ⟨s.1.sh_offset, s.1.sh_offset + s.1.sh_size, (s.2.length : ℤ) - s.1.sh_size⟩
  else ⟨s.1.sh_offset, s.1.sh_offset, 0⟩

/-- The snapshots of all sections. -/
def snapshot (shdrs : List Shdr64) (data : List Bytes) : List Snapshot :=
  (shdrs.zip data).map snapshotOf

variable (snap : List Snapshot)

/-- The changes with the offsets behind which they apply, in the order of the offsets. -/
def events : List (ℕ × ℤ) :=
  ((snap.filter fun s => s.delta ≠ 0).map fun s => (s.stop, s.delta)).insertionSort
    fun a b => a.1 ≤ b.1

/-- The total change of the sections that end at or before the old offset `off`. -/
def shiftFor (off : ℕ) : ℤ :=
  (((events snap).filter fun e => e.1 ≤ off).map Prod.snd).sum

/-- A section header with the new size and offset. -/
def resizeShdr (s : Shdr64 × Bytes) : Shdr64 :=
  { s.1 with
    sh_size := if s.1.occupiesFile then s.2.length else s.1.sh_size
    sh_offset := saturatingAddSigned s.1.sh_offset (shiftFor snap s.1.sh_offset) }

/-- The total change of the sections inside the segment `segStart..segEnd`. -/
def growth (segStart segEnd : ℕ) : ℤ :=
  ((snap.filter fun s => s.delta ≠ 0 ∧ segStart ≤ s.off ∧ s.stop ≤ segEnd).map Snapshot.delta).sum

/-- A program header with the new offset, addresses and sizes. The end of the segment is a sum of
two fields that may overflow. -/
def resizePhdr (checks : Bool) (snap : List Snapshot) (p : Phdr64) : Option Phdr64 := do
  let segEnd ← addWord checks p.p_offset p.p_filesz
  let grown := growth snap p.p_offset segEnd
  let shift := shiftFor snap p.p_offset
  return { p with
    p_offset := saturatingAddSigned p.p_offset shift
    p_vaddr := saturatingAddSigned p.p_vaddr shift
    p_paddr := saturatingAddSigned p.p_paddr shift
    p_filesz := if grown ≠ 0 then saturatingAddSigned p.p_filesz grown else p.p_filesz
    p_memsz := if grown ≠ 0 then saturatingAddSigned p.p_memsz grown else p.p_memsz }

/-- The file with the new contents and adapted headers. The program-header table keeps its
offset. -/
def applySizeChanges (checks : Bool) (f : Elf64File) (data : List Bytes) :
    Option Elf64File := do
  let snap := snapshot f.shdrs data
  let phdrs ← f.phdrs.mapM (resizePhdr checks snap)
  return { f with
    shdrs := (f.shdrs.zip data).map (resizeShdr snap)
    phdrs := phdrs
    padding := f.padding.map fun p => (saturatingAddSigned p.1 (shiftFor snap p.1), p.2)
    ehdr := { f.ehdr with
      e_shoff := saturatingAddSigned f.ehdr.e_shoff (shiftFor snap f.ehdr.e_shoff) }
    file_size := saturatingAddSigned f.file_size (snap.map Snapshot.delta).sum
    section_data := data }

/-- The total change of the sections of a file that end at or before `off`. -/
def changeBefore (f : Elf64File) (data : List Bytes) (off : ℕ) : ℤ :=
  (((f.shdrs.zip data).filter fun s => s.1.occupiesFile && s.1.sh_offset + s.1.sh_size ≤ off).map
    fun s => (s.2.length : ℤ) - s.1.sh_size).sum

/-! ## The shift -/

/-- A sum over the elements with a property, as a sum over all. -/
theorem sum_map_filter {α : Type} (p : α → Bool) (g : α → ℤ) (l : List α) :
    ((l.filter p).map g).sum = (l.map fun a => if p a then g a else 0).sum := by
  induction l with
  | nil => rfl
  | cons a l ih =>
    by_cases h : p a = true
    · simp [filter_cons_of_pos h, h, ih]
    · simp [filter_cons_of_neg h, h, ih]

/-- The shift is the total change of the sections that end before the offset. -/
theorem shiftFor_eq (f : Elf64File) (data : List Bytes) (off : ℕ) :
    shiftFor (snapshot f.shdrs data) off = changeBefore f data off := by
  unfold shiftFor events changeBefore
  have hperm := (perm_insertionSort (fun a b : ℕ × ℤ => a.1 ≤ b.1)
    (((snapshot f.shdrs data).filter fun s => s.delta ≠ 0).map fun s => (s.stop, s.delta)))
  rw [((hperm.filter _).map Prod.snd).sum_eq, filter_map, map_map, filter_filter,
    sum_map_filter, sum_map_filter, snapshot, map_map]
  congr 1
  refine map_congr_left fun s _ => ?_
  by_cases hocc : s.1.occupiesFile = true
  · by_cases hle : s.1.sh_offset + s.1.sh_size ≤ off <;> simp [snapshotOf, hocc, hle]
    intro h0
    rw [h0]
  · simp [snapshotOf, hocc]

/-- The change before any offset is at most what all new contents amount to. -/
theorem changeBefore_le {data : List Bytes} (hlen : data.length = f.shdrs.length)
    (off : ℕ) : changeBefore f data off ≤ (data.map List.length).sum := by
  have hsnd : (data.map List.length).sum = ((f.shdrs.zip data).map fun s => s.2.length).sum := by
    have hdata : (f.shdrs.zip data).map Prod.snd = data := map_snd_zip hlen.le
    conv_lhs => rw [← hdata, map_map]
    rfl
  rw [hsnd, Nat.cast_list_sum, map_map, changeBefore, sum_map_filter]
  refine sum_le_sum fun s _ => ?_
  simp only [Function.comp_apply]
  split_ifs <;> omega

/-- Nothing changes before the start of the file. -/
theorem changeBefore_zero (f : Elf64File) (data : List Bytes) : changeBefore f data 0 = 0 := by
  rw [changeBefore, filter_eq_nil_iff.2]
  · rfl
  intro s _ hs
  simp only [Bool.and_eq_true, decide_eq_true_eq] at hs
  have := size_pos_of_occupiesFile hs.1
  omega

namespace Elf64File

/-- The length of a part after the replacement. -/
def newLen (f : Elf64File) (data : List Bytes) : Piece → ℕ
  | .content i => (data[i]?).elim 0 List.length
  | p => (f.extentOf p).len

/-- Where a part has to stand after the replacement: moved by the changes before it. -/
def movedExtent (f : Elf64File) (data : List Bytes) (p : Piece) : Extent :=
  ⟨((f.extentOf p).start + changeBefore f data (f.extentOf p).start).toNat, f.newLen data p⟩

namespace Parsed

variable {b : Bytes} {f : Elf64File} {data : List Bytes}

/-- The change before an offset, over the parts of the file: only contents change their lengths. -/
theorem shiftAt_pieces (h : Parsed b f) (hlen : data.length = f.shdrs.length) (off : ℕ) :
    shiftAt (fun p => (f.extentOf p).start) (fun p => (f.extentOf p).len) (f.newLen data) f.pieces
      off = changeBefore f data off := by
  have hzip : (f.shdrs.zip data).length = f.shdrs.length := by simp [hlen]
  have hocc : ∀ i, f.occupied i = ((f.shdrs.zip data)[i]?).any fun s => s.1.occupiesFile := by
    intro i
    by_cases hi : i < f.shdrs.length
    · simp [occupied, hi, hlen]
    · rw [occupied, List.getElem?_eq_none (by omega), List.getElem?_eq_none (by omega)]
      rfl
  -- The summand of a part, which is zero unless the part is a content.
  have hcontent : (((List.range f.shdrs.length).filter f.occupied).map fun i =>
      if decide ((f.extentOf (.content i)).start + (f.extentOf (.content i)).len ≤ off) then
        change (fun p => (f.extentOf p).len) (f.newLen data) (.content i) else 0) =
      ((f.shdrs.zip data).filter fun s => s.1.occupiesFile).map fun s =>
        if decide (s.1.sh_offset + s.1.sh_size ≤ off) then (s.2.length : ℤ) - s.1.sh_size
          else 0 := by
    rw [← hzip, filter_congr fun i _ => hocc i]
    refine map_filter_range fun i s hi hs => ?_
    obtain ⟨hsh, hd⟩ := List.getElem?_zip_eq_some.1 hi
    simp [change, newLen, h.extentOf_content hsh hs, sectionExtent, hd]
  have hsame : ∀ p, (∀ i, p ≠ .content i) →
      change (fun p => (f.extentOf p).len) (f.newLen data) p = 0 := by
    intro p hp
    cases p with
    | content i => exact absurd rfl (hp i)
    | _ => simp [change, newLen]
  have hfilter : changeBefore f data off = (((f.shdrs.zip data).filter fun s =>
      s.1.occupiesFile).map fun s => if decide (s.1.sh_offset + s.1.sh_size ≤ off) then
        (s.2.length : ℤ) - s.1.sh_size else 0).sum := by
    rw [← sum_map_filter, filter_filter, changeBefore]
    simp only [Bool.and_comm]
  rw [shiftAt, sum_map_filter, pieces, hfilter, ← hcontent]
  split_ifs <;> simp [hsame .header, hsame .phdrTable, hsame .shdrTable, hsame (.pad _),
    Function.comp_def]

/-- Every part of the file holds a byte. -/
theorem len_pos (h : Parsed b f) {x : Extent} (hx : x ∈ f.pieces.map f.extentOf) : 0 < x.len := by
  obtain ⟨exts, hperm, -, hpad⟩ := h.layout
  rw [h.extents_eq, h.padding_extents hperm hpad, mem_append] at hx
  rcases hx with hx | hx
  · simp only [structured, tableExtent, mem_cons, mem_append, mem_map, mem_filter] at hx
    have hsize : 0 < ehdrSize f.cls ∧ 0 < phdrSize f.cls ∧ 0 < shdrSize f.cls := by
      cases f.cls <;> decide
    rcases hx with rfl | (hx | hx) | ⟨sh, ⟨-, hocc⟩, rfl⟩
    · exact hsize.1
    · split_ifs at hx with h0
      · rw [mem_singleton.1 hx]
        exact Nat.mul_pos h0 hsize.2.1
      · simp at hx
    · split_ifs at hx with h0
      · rw [mem_singleton.1 hx]
        exact Nat.mul_pos h0 hsize.2.2
      · simp at hx
    · exact size_pos_of_occupiesFile hocc
  · exact len_pos_of_mem_gaps hx

/-- The parts, each at its moved place, tile the new image. -/
theorem tiles_moved (h : Parsed b f) (hlen : data.length = f.shdrs.length) :
    (∀ p ∈ f.pieces, 0 ≤ (f.extentOf p).start + changeBefore f data (f.extentOf p).start ∧
        (f.movedExtent data p).start ≤ (b.length + changeBefore f data b.length).toNat) ∧
      Tiles (f.pieces.map (f.movedExtent data))
        (b.length + changeBefore f data b.length).toNat := by
  -- The parts in the order of the file are a run.
  let sorted := f.pieces.insertionSort fun p q => (f.extentOf p).start ≤ (f.extentOf q).start
  have hperm : sorted.Perm f.pieces := perm_insertionSort _ _
  have hpos : ∀ p ∈ sorted, 0 < (f.extentOf p).len := fun p hp =>
    h.len_pos (mem_map_of_mem (hperm.mem_iff.1 hp))
  have hcontig : Contig 0 (sorted.map fun p => ⟨(f.extentOf p).start, (f.extentOf p).len⟩)
      b.length := by
    refine (h.tiles.perm (hperm.map f.extentOf).symm).contig ?_ ?_
    · exact forall_mem_map.2 hpos
    · rw [pairwise_map]
      exact pairwise_insertionSort _ _
  have hshift : ∀ off, shiftAt (fun p => (f.extentOf p).start) (fun p => (f.extentOf p).len)
      (f.newLen data) sorted off = changeBefore f data off := fun off => by
    rw [shiftAt_perm _ _ _ hperm, h.shiftAt_pieces hlen]
  -- All parts end inside the image, so that the changes before its end are all changes.
  have htotal : (sorted.map (change (fun p => (f.extentOf p).len) (f.newLen data))).sum =
      changeBefore f data b.length := by
    rw [← hshift, shiftAt, filter_eq_self.2]
    intro p hp
    have := (hcontig.bounds (mem_map.2 ⟨p, hp, rfl⟩)).2
    simpa [Extent.stop] using this
  obtain ⟨hnonneg, hmoved⟩ := contig_moved (fun p => (f.extentOf p).start)
    (fun p => (f.extentOf p).len) (f.newLen data) (σ := changeBefore f data) hpos hcontig
    (d := 0) (by simp) fun p _ => by rw [hshift, zero_add]
  rw [htotal, add_zero, add_zero, Nat.cast_zero, Int.toNat_zero] at hmoved
  refine ⟨fun p hp => ⟨hnonneg p (hperm.mem_iff.2 hp), ?_⟩, ?_⟩
  · have := (hmoved.bounds (mem_map_of_mem (hperm.mem_iff.2 hp))).2
    exact (Nat.le_add_right _ _).trans this
  · exact hmoved.tiles.perm (hperm.map (f.movedExtent data))

/-- All changes, over the snapshots. -/
theorem sum_delta (h : Parsed b f) :
    ((snapshot f.shdrs data).map Snapshot.delta).sum = changeBefore f data b.length := by
  rw [changeBefore, sum_map_filter, snapshot, map_map]
  congr 1
  refine map_congr_left fun s hs => ?_
  by_cases hocc : s.1.occupiesFile = true
  · have hle := h.data_le s.1 (of_mem_zip hs).1 hocc
    simp [snapshotOf, hocc, hle]
  · simp [snapshotOf, hocc]

/-- After the re-layout every part but the program-header table is at its moved place. -/
theorem extentOf_applySizeChanges (h : Parsed b f) (r : Replacement f)
    {g : Elf64File} (hg : applySizeChanges checks f r.data = some g) :
    g.file_size = (b.length + changeBefore f r.data b.length).toNat ∧
      g.extentOf .phdrTable = f.extentOf .phdrTable ∧
      ∀ p ∈ f.pieces, p ≠ .phdrTable → g.extentOf p = f.movedExtent r.data p := by
  have hbound := changeBefore_le r.length_eq b.length
  have hfits := r.fits
  rw [h.size_eq] at hfits
  have hword : b.length + changeBefore f r.data b.length < wordSize := by
    unfold wordSize
    omega
  -- A part that the source moves stands where the moved part has to stand.
  have hmove : ∀ p ∈ f.pieces, saturatingAddSigned (f.extentOf p).start
      (shiftFor (snapshot f.shdrs r.data) (f.extentOf p).start) =
        (f.movedExtent r.data p).start := by
    intro p hp
    obtain ⟨hnonneg, hle⟩ := (h.tiles_moved r.length_eq).1 p hp
    rw [shiftFor_eq]
    refine saturatingAddSigned_of_lt ?_
    simp only [movedExtent] at hle
    unfold wordSize at hword ⊢
    omega
  obtain ⟨phdrs, -, hg⟩ := steps₁_eq_some.1 hg
  subst hg
  refine ⟨?_, rfl, fun p hp hne => ?_⟩
  · show saturatingAddSigned f.file_size _ = _
    rw [h.size_eq, h.sum_delta]
    exact saturatingAddSigned_of_lt hword
  have hp' := hmove p hp
  cases p with
  | header =>
    simp only [movedExtent, extentOf, newLen, Nat.cast_zero, zero_add, changeBefore_zero,
      Int.toNat_zero]
  | phdrTable => exact absurd rfl hne
  | shdrTable => exact congrArg (Extent.mk · _) hp'
  | content i =>
    have hi : i < f.shdrs.length ∧ f.occupied i = true := by simpa [pieces] using hp
    have hd : i < r.data.length := r.length_eq ▸ hi.1
    simpa [extentOf, movedExtent, newLen, resizeShdr, hi.1, hd] using hp'
  | pad i =>
    have hi : i < f.padding.length := by simpa [pieces] using hp
    simpa [extentOf, movedExtent, newLen, hi] using hp'

end Parsed

/-! ## Replacements of the same length -/

/-- The replacement keeps the length of every section that occupies the file. -/
def KeepsLengths (f : Elf64File) (data : List Bytes) : Prop :=
  ∀ s ∈ f.shdrs.zip data, s.1.occupiesFile = true → s.2.length = s.1.sh_size

/-- No section changes its length. -/
theorem delta_eq_zero {data : List Bytes} (hkeep : f.KeepsLengths data) :
    ∀ s ∈ snapshot f.shdrs data, s.delta = 0 := by
  intro s hs
  obtain ⟨t, ht, rfl⟩ := mem_map.1 hs
  unfold snapshotOf
  split_ifs with hocc
  · simp [hkeep t ht hocc]
  · rfl

variable {snap : List Snapshot}

/-- Without a change of length nothing moves. -/
theorem shiftFor_eq_zero (h : ∀ s ∈ snap, s.delta = 0) (off : ℕ) : shiftFor snap off = 0 := by
  have hnone : (snap.filter fun s => s.delta ≠ 0) = [] :=
    filter_eq_nil_iff.2 fun s hs => by simp [h s hs]
  rw [shiftFor, events, hnone]
  rfl

/-- Without a change of length no segment grows. -/
theorem growth_eq_zero (h : ∀ s ∈ snap, s.delta = 0) (a b : ℕ) : growth snap a b = 0 := by
  have hnone : (snap.filter fun s => s.delta ≠ 0 ∧ a ≤ s.off ∧ s.stop ≤ b) = [] :=
    filter_eq_nil_iff.2 fun s hs => by simp [h s hs]
  rw [growth, hnone]
  rfl

/-- A program header of a file that does not change is kept. -/
theorem resizePhdr_eq_self (h : ∀ s ∈ snap, s.delta = 0) {p q : Phdr64}
    (hp : p.p_offset < wordSize ∧ p.p_vaddr < wordSize ∧ p.p_paddr < wordSize)
    (hq : resizePhdr checks snap p = some q) : q = p := by
  obtain ⟨segEnd, -, hq⟩ := steps₁_eq_some.1 hq
  rw [← hq, shiftFor_eq_zero h, growth_eq_zero h]
  simp [hp]

/-- A successful pass over a list keeps it when it keeps every element. -/
theorem mapM_eq_self {α : Type} {g : α → Option α} : ∀ {xs ys : List α},
    (∀ x ∈ xs, ∀ y, g x = some y → y = x) → xs.mapM g = some ys → ys = xs
  | [], ys, _, h => by simpa [eq_comm] using h
  | x :: xs, ys, hg, h => by
    rw [mapM_cons] at h
    obtain ⟨y, ys', hy, hys, h⟩ := steps₂_eq_some.1 h
    rw [← h, hg x (by simp) y hy, mapM_eq_self (fun z hz => hg z (by simp [hz])) hys]

/-- The re-layout panics only on a segment whose end overflows, in a build that checks for it. -/
theorem isSome_applySizeChanges {data : List Bytes} : (applySizeChanges checks f data).isSome ↔
      (checks = true → ∀ p ∈ f.phdrs, p.p_offset + p.p_filesz < wordSize) := by
  have hphdr : ∀ snap p, (resizePhdr checks snap p).isSome ↔
      (checks = true → p.p_offset + p.p_filesz < wordSize) := by
    intro snap p
    simp only [resizePhdr, bind_pure_comp, Option.map_eq_map, Option.isSome_map, isSome_addWord]
  have hmap : (applySizeChanges checks f data).isSome ↔
      (f.phdrs.mapM (resizePhdr checks (snapshot f.shdrs data))).isSome := by
    simp only [applySizeChanges, bind_pure_comp, Option.map_eq_map, Option.isSome_map]
  rw [hmap, isSome_mapM]
  simp only [hphdr]
  exact ⟨fun h hc p hp => h p hp hc, fun h p hp hc => h hc p hp⟩

/-- A file whose sections keep their lengths is unchanged apart from their contents. -/
theorem Parsed.applySizeChanges_keeps {b : Bytes} (h : Parsed b f)
    (r : Replacement f) (hkeep : f.KeepsLengths r.data) {g : Elf64File}
    (hg : applySizeChanges checks f r.data = some g) : g = { f with section_data := r.data } := by
  have hzero := delta_eq_zero hkeep
  have hfits := r.fits
  obtain ⟨phdrs, hphdrs, hg⟩ := steps₁_eq_some.1 hg
  have hph : phdrs = f.phdrs := by
    refine mapM_eq_self (fun p hp q hq => resizePhdr_eq_self hzero ?_ hq) hphdrs
    rw [h.phdrs_eq] at hp
    obtain ⟨e, -, rfl⟩ := mem_map.1 hp
    exact Phdr64.parse_lt _ _
  have hsh : (f.shdrs.zip r.data).map (resizeShdr (snapshot f.shdrs r.data)) = f.shdrs := by
    conv_rhs => rw [← map_fst_zip r.length_eq.ge]
    refine map_congr_left fun s hs => ?_
    have hword : s.1.sh_offset < wordSize := by
      have hmem := (of_mem_zip hs).1
      rw [h.shdrs_eq] at hmem
      obtain ⟨e, -, he⟩ := mem_map.1 hmem
      rw [← he]
      exact parse_lt _ _
    rw [resizeShdr, shiftFor_eq_zero hzero, saturatingAddSigned_zero hword]
    split_ifs with hocc
    · rw [hkeep s hs hocc]
    · rfl
  have hpad : (f.padding.map fun p =>
      (saturatingAddSigned p.1 (shiftFor (snapshot f.shdrs r.data) p.1), p.2)) = f.padding := by
    conv_rhs => rw [← map_id f.padding]
    refine map_congr_left fun p hp => ?_
    have hword : p.1 < wordSize := by
      have hmem : (⟨p.1, p.2.length⟩ : Extent) ∈ f.pieces.map f.extentOf := by
        rw [h.extents_eq]
        exact mem_append_right _ (mem_map_of_mem hp)
      have hstop := h.tiles.stop_le hmem (h.len_pos hmem)
      simp only [Extent.stop, ← h.size_eq] at hstop
      unfold wordSize
      omega
    rw [shiftFor_eq_zero hzero, saturatingAddSigned_zero hword]
    rfl
  have hsize : saturatingAddSigned f.file_size ((snapshot f.shdrs r.data).map Snapshot.delta).sum =
      f.file_size := by
    have hsum : ((snapshot f.shdrs r.data).map Snapshot.delta).sum = 0 :=
      sum_eq_zero (forall_mem_map.2 hzero)
    rw [hsum]
    exact saturatingAddSigned_zero (by unfold wordSize; omega)
  rw [← hg, hph, hsh, hpad, hsize, shiftFor_eq_zero hzero, saturatingAddSigned_zero]
  rw [h.ehdr_eq]
  exact Ehdr64.readAs_lt _ _

/-! ## The re-layout -/

/-- The parts of a file, the program-header table first. -/
theorem pieces_perm (h0 : 0 < f.ehdr.e_phnum) :
    ∃ rest, f.pieces.Perm (.phdrTable :: rest) ∧ .phdrTable ∉ rest := by
  refine ⟨.header :: (((if 0 < f.ehdr.e_shnum then [.shdrTable] else []) ++
    ((List.range f.shdrs.length).filter f.occupied).map .content) ++
    (List.range f.padding.length).map .pad), ?_, ?_⟩
  · rw [pieces, if_pos h0]
    simpa using List.Perm.swap _ _ _
  · simp

/-- The re-layout of an accepted file gives an image that its parts tile, with an unchanged layout
when every content keeps its length, exactly when the file has no program-header table or the
changes before the table cancel (and no segment's end overflows in a build that checks for
overflows). -/
theorem applySizeChanges_tiles_iff (checks : Bool) (b : Bytes) (f : Elf64File)
    (h : parse b = .ok f) (r : Replacement f) : (∃ g, applySizeChanges checks f r.data = some g ∧
        Tiles (f.pieces.map g.extentOf) g.file_size ∧
        (f.KeepsLengths r.data → g = { f with section_data := r.data })) ↔
      (checks = true → ∀ p ∈ f.phdrs, p.p_offset + p.p_filesz < wordSize) ∧
        (f.ehdr.e_phnum = 0 ∨ changeBefore f r.data f.ehdr.e_phoff = 0) := by
  have hp := parse_spec h
  obtain ⟨hmoved, htiles⟩ := hp.tiles_moved r.length_eq
  have hsome : (applySizeChanges checks f r.data).isSome ↔ _ := isSome_applySizeChanges
  rw [← hsome, Option.isSome_iff_exists]
  constructor
  · rintro ⟨g, hg, htiles', -⟩
    refine ⟨⟨g, hg⟩, ?_⟩
    by_contra hne
    rw [not_or] at hne
    obtain ⟨rest, hperm, hnot⟩ := pieces_perm (Nat.pos_of_ne_zero hne.1)
    obtain ⟨hsize, hph, hrest⟩ := hp.extentOf_applySizeChanges r hg
    have hmem : Piece.phdrTable ∈ f.pieces := hperm.mem_iff.2 (by simp)
    -- All other parts are moved to their places, and the table stands still.
    have hstill : (.phdrTable :: rest).map g.extentOf = ⟨f.ehdr.e_phoff,
        (f.movedExtent r.data .phdrTable).len⟩ :: rest.map (f.movedExtent r.data) := by
      rw [List.map_cons, hph]
      congr 1
      refine List.map_congr_left fun p hp' => hrest p (hperm.mem_iff.2 (by simp [hp'])) ?_
      rintro rfl
      exact hnot hp'
    have hold := htiles'.perm (hperm.map g.extentOf)
    rw [hstill, hsize] at hold
    refine Tiles.not_tiles_move (htiles.perm (hperm.map _)) ?_ ?_ hold
    · have hpos : 0 < (f.extentOf .phdrTable).len := hp.len_pos (List.mem_map_of_mem hmem)
      exact hpos
    have hnonneg := (hmoved _ hmem).1
    have hchange := hne.2
    simp only [movedExtent, extentOf] at hnonneg ⊢
    omega
  · rintro ⟨⟨g, hg⟩, hcase⟩
    refine ⟨g, hg, ?_, fun hkeep => hp.applySizeChanges_keeps r hkeep hg⟩
    obtain ⟨hsize, hph, hrest⟩ := hp.extentOf_applySizeChanges r hg
    have heq : f.pieces.map g.extentOf = f.pieces.map (f.movedExtent r.data) := by
      refine List.map_congr_left fun p hmem => ?_
      by_cases hpt : p = .phdrTable
      · subst hpt
        have h0 : 0 < f.ehdr.e_phnum := by
          by_contra h0
          simp [pieces, h0] at hmem
        have hzero := hcase.resolve_left h0.ne'
        rw [hph]
        simp [movedExtent, newLen, extentOf, hzero]
      · exact hrest p hmem hpt
    rw [heq, hsize]
    exact htiles

/-- A 32-bit image whose program-header table stands between its two sections. -/
def lateTableImage : Bytes :=
  elfMagic ++ [1, 1, 1] ++ List.replicate 9 0 ++ toLe 2 1 ++ toLe 2 3 ++ toLe 4 1 ++ toLe 4 0 ++
    toLe 4 56 ++ toLe 4 90 ++ toLe 4 0 ++ toLe 2 52 ++ toLe 2 32 ++ toLe 2 1 ++ toLe 2 40 ++
    toLe 2 2 ++ toLe 2 0 ++ [0xde, 0xad, 0xbe, 0xef] ++
    (toLe 4 1 ++ toLe 4 52 ++ toLe 4 52 ++ toLe 4 52 ++ toLe 4 38 ++ toLe 4 38 ++ toLe 4 5 ++
      toLe 4 1) ++ [0xca, 0xfe] ++
    (toLe 4 0 ++ toLe 4 1 ++ toLe 4 0 ++ toLe 4 0 ++ toLe 4 52 ++ toLe 4 4 ++ toLe 4 0 ++
      toLe 4 0 ++ toLe 4 1 ++ toLe 4 0) ++
    (toLe 4 0 ++ toLe 4 1 ++ toLe 4 0 ++ toLe 4 0 ++ toLe 4 88 ++ toLe 4 2 ++ toLe 4 0 ++
      toLe 4 0 ++ toLe 4 1 ++ toLe 4 0)

/-- The file that is read from `lateTableImage`. -/
def lateTableFile : Elf64File where
  cls := .elf32
  ehdr := ⟨elfMagic ++ [1, 1, 1] ++ List.replicate 9 0, 1, 3, 1, 0, 56, 90, 0, 52, 32, 1, 40, 2, 0⟩
  phdrs := [⟨1, 5, 52, 52, 52, 38, 38, 1⟩]
  shdrs := [⟨0, 1, 0, 0, 52, 4, 0, 0, 1, 0⟩, ⟨0, 1, 0, 0, 88, 2, 0, 0, 1, 0⟩]
  section_data := [[0xde, 0xad, 0xbe, 0xef], [0xca, 0xfe]]
  padding := []
  file_size := 170

/-- The image is accepted. -/
theorem parse_lateTableImage : parse lateTableImage = .ok lateTableFile := by
  have hsome : (parse lateTableImage).toOption = some lateTableFile := by decide +kernel
  cases h : parse lateTableImage with
  | error e => simp [h, Except.toOption] at hsome
  | ok f => simpa [h, Except.toOption] using hsome

/-- Other four bytes for the first section of `lateTableFile`, and three bytes more for the
second. -/
def longerTail : Replacement lateTableFile where
  data := [[1, 2, 3, 4], [5, 6, 7, 8, 9]]
  length_eq := rfl
  fits := by decide

/-- A section behind the program-header table may grow: the section headers and the end of the
segment move. -/
theorem applySizeChanges_tiles_longerTail :
    ∃ g, applySizeChanges true lateTableFile longerTail.data = some g ∧
      Tiles (lateTableFile.pieces.map g.extentOf) g.file_size ∧
      (lateTableFile.KeepsLengths longerTail.data →
        g = { lateTableFile with section_data := longerTail.data }) :=
  -- No section before the table changes its length, and no end of a segment overflows.
  (applySizeChanges_tiles_iff true lateTableImage lateTableFile parse_lateTableImage longerTail).2
    (by decide)

/-- With one byte more, the first section of `lateTableFile` ends inside the program-header
table. -/
theorem applySizeChanges_overlaps :
    parse lateTableImage = .ok lateTableFile ∧
      ∃ g, applySizeChanges true lateTableFile [[1, 2, 3, 4, 5], [0xca, 0xfe]] = some g ∧
        g.extentOf (.content 0) = ⟨52, 5⟩ ∧ g.extentOf .phdrTable = ⟨56, 32⟩ ∧
        ¬Tiles (lateTableFile.pieces.map g.extentOf) g.file_size := by
  refine ⟨parse_lateTableImage, _, rfl, by decide, by decide, fun ht => ?_⟩
  have h56 := tiles_iff_coverage.1 ht 56
  revert h56
  decide

end Elf64File

end Univdreams.Elf
