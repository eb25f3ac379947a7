import Univdreams.Elf.File

/-!
# Reading an ELF image and writing it back

`Elf64File.parse_spec` collects what the reader has established about an image that it accepts: the
headers are those of the image, every region lies inside it, and no two regions overlap. From that
follow the two halves of the round trip. The regions and the padding tile the image
(`Parsed.tiles`), and the writer lays the bytes of the image over each of them, so that it returns
the image (`Parsed.writeToVec_eq`).
-/

namespace Univdreams.Elf

open List Run Region Function

variable {offset count entrySize : ℕ} {b : Bytes} {label : String} {bytes : Bytes}

/-! ## What each step of the reader establishes -/

theorem ensureTable_eq_ok (h : ensureTable label bytes offset count entrySize = .ok ()) :
    offset + count * entrySize ≤ bytes.length := by
  unfold ensureTable at h
  cases hm : checkedMul count entrySize with
  | none => simp [hm, fail] at h
  | some total =>
    obtain ⟨-, rfl⟩ := checkedMul_eq_some.1 hm
    simp only [hm] at h
    exact (ensureLen_eq_ok h).2

/-- A table without entries has no headers, so both branches of the reader return the entries. -/
theorem parsePhdrs_eq_ok {cls : ElfClass} {ehdr : Ehdr64} {phdrs : List Phdr64}
    (h : parsePhdrs cls bytes ehdr = .ok phdrs) :
    phdrs = (tableEntries bytes ehdr.e_phoff ehdr.e_phnum (phdrSize cls)).map (Phdr64.parse cls) ∧
      (0 < ehdr.e_phnum → ehdr.e_phoff + ehdr.e_phnum * phdrSize cls ≤ bytes.length) := by
  unfold parsePhdrs at h
  split_ifs at h with h0
  · have hnil : [] = phdrs := pure_eq_ok.1 h
    simp [h0, ← hnil, tableEntries]
  · obtain ⟨u, htab, heq⟩ := bind_eq_ok.1 h
    exact ⟨(pure_eq_ok.1 heq).symm, fun _ => ensureTable_eq_ok htab⟩

/-- The content of a section as the reader keeps it. -/
def contentOf (bytes : Bytes) (sh : Shdr64) : Bytes :=
  if sh.occupiesFile then window bytes sh.sh_offset sh.sh_size else []

/-- The contents are those at the headers' offsets, inside the file. -/
theorem sectionContents_eq_ok {bytes : Bytes} : ∀ {shdrs : List Shdr64} {data : List Bytes},
    sectionContents bytes shdrs = .ok data →
    data = shdrs.map (contentOf bytes) ∧
      ∀ sh ∈ shdrs, sh.occupiesFile = true → sh.sh_offset + sh.sh_size ≤ bytes.length
  | [], data, h => by
    have hnil : [] = data := pure_eq_ok.1 h
    simp [← hnil]
  | sh :: shs, data, h => by
    obtain ⟨d, ds, hd, hds, hdata⟩ := steps₂_eq_ok.1 h
    obtain ⟨ih, ihlen⟩ := sectionContents_eq_ok hds
    -- The section itself: its content is cut out of the file after the length check.
    have hself : d = contentOf bytes sh ∧
        (sh.occupiesFile = true → sh.sh_offset + sh.sh_size ≤ bytes.length) := by
      unfold sectionContent at hd
      unfold contentOf
      split_ifs at hd ⊢ with hocc
      · obtain ⟨u, hlen, hd⟩ := bind_eq_ok.1 hd
        exact ⟨(pure_eq_ok.1 hd).symm, fun _ => (ensureLen_eq_ok hlen).2⟩
      · exact ⟨(pure_eq_ok.1 hd).symm, fun h' => absurd h' hocc⟩
    refine ⟨by rw [← hdata, hself.1, ih, map_cons], ?_⟩
    intro s hs
    rcases mem_cons.1 hs with rfl | hs
    · exact hself.2
    · exact ihlen s hs

/-- What parsing the section headers and their contents reads. -/
theorem parseShdrsAndSections_eq_ok {cls : ElfClass} {ehdr : Ehdr64} {shdrs : List Shdr64}
    {data : List Bytes} (h : parseShdrsAndSections cls bytes ehdr = .ok (shdrs, data)) :
    shdrs = (tableEntries bytes ehdr.e_shoff ehdr.e_shnum (shdrSize cls)).map (Shdr64.parse cls) ∧
      (0 < ehdr.e_shnum → ehdr.e_shoff + ehdr.e_shnum * shdrSize cls ≤ bytes.length) ∧
      data = shdrs.map (contentOf bytes) ∧
      ∀ sh ∈ shdrs, sh.occupiesFile = true → sh.sh_offset + sh.sh_size ≤ bytes.length := by
  unfold parseShdrsAndSections at h
  split_ifs at h with h0
  · obtain ⟨hs, hd⟩ := Prod.mk.injEq .. ▸ pure_eq_ok.1 h
    simp [h0, ← hs, ← hd, tableEntries]
  obtain ⟨u, htab, h⟩ := bind_eq_ok.1 h
  obtain ⟨d, hd, heq⟩ := steps₁_eq_ok.1 h
  obtain ⟨hs, rfl⟩ := Prod.mk.inj heq
  obtain ⟨hdata, hin⟩ := sectionContents_eq_ok hd
  subst hs
  exact ⟨rfl, fun _ => ensureTable_eq_ok htab, hdata, hin⟩

theorem regionOf_eq_ok {offset size : ℕ} {r : Region}
    (h : regionOf label offset size = .ok r) : r.extent = ⟨offset, size⟩ ∧ r.start ≤ r.stop := by
  unfold regionOf at h
  cases hc : checkedAdd offset size with
  | none => simp [hc, fail] at h
  | some stop =>
    obtain ⟨-, rfl⟩ := checkedAdd_eq_some.1 hc
    simp only [hc, Except.ok.injEq] at h
    subst h
    simp [extent]

/-- The extent of a header table: none when the table has no entry. -/
def tableExtent (offset count entrySize : ℕ) : List Extent :=
  if 0 < count then [⟨offset, count * entrySize⟩] else []

theorem tableRegion_eq_ok {rs : List Region}
    (h : tableRegion label offset count entrySize = .ok rs) :
    rs.map extent = tableExtent offset count entrySize ∧ ∀ r ∈ rs, r.start ≤ r.stop := by
  unfold tableRegion at h
  unfold tableExtent
  split_ifs at h ⊢ with hc
  · obtain ⟨r, hr, heq⟩ := bind_eq_ok.1 h
    have hrs : [r] = rs := pure_eq_ok.1 heq
    obtain ⟨hext, hle⟩ := regionOf_eq_ok hr
    simp [← hrs, hext, hle]
  · have hrs : [] = rs := pure_eq_ok.1 h
    simp [← hrs]

/-- The place of a section's content in the file. -/
def sectionExtent (sh : Shdr64) : Extent := ⟨sh.sh_offset, sh.sh_size⟩

/-- The regions of sections are those that occupy the file. -/
theorem sectionRegions_eq_ok : ∀ {shdrs : List Shdr64} {i : ℕ} {rs : List Region},
    sectionRegions i shdrs = .ok rs →
    rs.map extent = (shdrs.filter Shdr64.occupiesFile).map sectionExtent ∧
      ∀ r ∈ rs, r.start ≤ r.stop
  | [], i, rs, h => by
    have hnil : [] = rs := pure_eq_ok.1 h
    simp [← hnil]
  | sh :: shs, i, rs, h => by
    unfold sectionRegions at h
    split_ifs at h with hocc
    · obtain ⟨r, hr, h⟩ := bind_eq_ok.1 h
      obtain ⟨rs', hrs', hrs⟩ := steps₁_eq_ok.1 h
      obtain ⟨hext, hle⟩ := regionOf_eq_ok hr
      obtain ⟨ih, ihle⟩ := sectionRegions_eq_ok hrs'
      rw [filter_cons_of_pos hocc, ← hrs]
      exact ⟨by simp [hext, ih, sectionExtent], forall_mem_cons.2 ⟨hle, ihle⟩⟩
    · rw [filter_cons_of_neg hocc]
      exact sectionRegions_eq_ok h

theorem checkOverlap_eq_ok : ∀ {rs : List Region}, checkOverlap rs = .ok () →
    List.IsChain (fun a b => a.stop ≤ b.start) rs
  | [], _ => .nil
  | [a], _ => .singleton a
  | a :: b :: rs, h => by
    unfold checkOverlap at h
    split_ifs at h with hlt
    · simp [fail] at h
    · exact isChain_cons_cons.2 ⟨by omega, checkOverlap_eq_ok h⟩

/-! ## What the reader establishes -/

namespace Elf64File

/-- The places of the structured regions of a file. -/
def structured (f : Elf64File) : List Extent :=
  ⟨0, ehdrSize f.cls⟩ :: (tableExtent f.ehdr.e_phoff f.ehdr.e_phnum (phdrSize f.cls) ++
    tableExtent f.ehdr.e_shoff f.ehdr.e_shnum (shdrSize f.cls) ++
    (f.shdrs.filter Shdr64.occupiesFile).map sectionExtent)

/-- What the reader has established about the image `b` when it returns the file `f`. -/
structure Parsed (b : Bytes) (f : Elf64File) : Prop where
  ehdr_le : ehdrSize f.cls ≤ b.length
  ehdr_eq : f.ehdr = Ehdr64.readAs f.cls b
  phdrs_eq : f.phdrs =
    (tableEntries b f.ehdr.e_phoff f.ehdr.e_phnum (phdrSize f.cls)).map (Phdr64.parse f.cls)
  phdrs_le : 0 < f.ehdr.e_phnum → f.ehdr.e_phoff + f.ehdr.e_phnum * phdrSize f.cls ≤ b.length
  shdrs_eq : f.shdrs =
    (tableEntries b f.ehdr.e_shoff f.ehdr.e_shnum (shdrSize f.cls)).map (Shdr64.parse f.cls)
  shdrs_le : 0 < f.ehdr.e_shnum → f.ehdr.e_shoff + f.ehdr.e_shnum * shdrSize f.cls ≤ b.length
  data_eq : f.section_data = f.shdrs.map (contentOf b)
  data_le : ∀ sh ∈ f.shdrs, sh.occupiesFile = true → sh.sh_offset + sh.sh_size ≤ b.length
  /-- The structured regions in the order of the file do not overlap, and the padding is what they
  leave. -/
  layout : ∃ exts : List Extent, exts.Perm f.structured ∧
    List.IsChain (fun x y => x.stop ≤ y.start) exts ∧
    f.padding = (gaps 0 exts b.length).map (chunkAt b)
  size_eq : f.file_size = b.length

/-- A structured region lies inside the image. -/
theorem structured_stop_le {f : Elf64File} (hhdr : ehdrSize f.cls ≤ b.length)
    (hph : 0 < f.ehdr.e_phnum → f.ehdr.e_phoff + f.ehdr.e_phnum * phdrSize f.cls ≤ b.length)
    (hsh : 0 < f.ehdr.e_shnum → f.ehdr.e_shoff + f.ehdr.e_shnum * shdrSize f.cls ≤ b.length)
    (hsec : ∀ sh ∈ f.shdrs, sh.occupiesFile = true → sh.sh_offset + sh.sh_size ≤ b.length)
    {x : Extent} (hx : x ∈ f.structured) : x.stop ≤ b.length := by
  simp only [structured, mem_cons, mem_append, tableExtent, mem_ite_nil_right,
    not_mem_nil, or_false, mem_map, mem_filter] at hx
  rcases hx with rfl | (⟨h, rfl⟩ | ⟨h, rfl⟩) | ⟨sh, ⟨hsh', hocc⟩, rfl⟩
  · simpa [Extent.stop] using hhdr
  · exact hph h
  · exact hsh h
  · exact hsec sh hsh' hocc

/-- What the reader has established about an image that it accepts. -/
theorem parse_spec {f : Elf64File} (h : parse b = .ok f) : Parsed b f := by
  obtain ⟨⟨ehdr, cls⟩, phdrs, hehdr, hphdrs, h⟩ := bind₂_eq_ok.1 h
  obtain ⟨⟨shdrs, data⟩, regions, hshdrs, hregions, h⟩ := bind₂_eq_ok.1 h
  obtain ⟨padding, hpadding, heq⟩ := bind_eq_ok.1 h
  have hf : (⟨cls, ehdr, phdrs, shdrs, data, padding, b.length⟩ : Elf64File) = f := pure_eq_ok.1 heq
  subst hf
  obtain ⟨hlen, hread⟩ := Ehdr64.parse_eq_ok hehdr
  obtain ⟨hph, hphle⟩ := parsePhdrs_eq_ok hphdrs
  obtain ⟨hsh, hshle, hdata, hdatale⟩ := parseShdrsAndSections_eq_ok hshdrs
  -- The regions, before they are sorted.
  obtain ⟨ph, sh, hphr, hshr, hregions⟩ := bind₂_eq_ok.1 hregions
  obtain ⟨secs, u, hsecs, hover, heq⟩ := bind₂_eq_ok.1 hregions
  obtain ⟨ephr, lphr⟩ := tableRegion_eq_ok hphr
  obtain ⟨eshr, lshr⟩ := tableRegion_eq_ok hshr
  obtain ⟨esecs, lsecs⟩ := sectionRegions_eq_ok hsecs
  have hsorted : sortByStart (⟨"ELF header", 0, ehdrSize cls⟩ :: (ph ++ sh ++ secs)) =
      regions := pure_eq_ok.1 heq
  have hperm := sortByStart_perm (⟨"ELF header", 0, ehdrSize cls⟩ :: (ph ++ sh ++ secs))
  rw [hsorted] at hperm hover
  have hexts : (regions.map extent).Perm
      (structured ⟨cls, ehdr, phdrs, shdrs, data, padding, b.length⟩) := by
    have := hperm.map extent
    simpa [structured, ephr, eshr, esecs, extent] using this
  have hle : ∀ r ∈ regions, r.start ≤ r.stop := by
    intro r hr
    have hr' := hperm.mem_iff.1 hr
    simp only [mem_cons, mem_append] at hr'
    rcases hr' with rfl | (hr' | hr') | hr'
    · simp
    · exact lphr r hr'
    · exact lshr r hr'
    · exact lsecs r hr'
  have hpad := padding_eq hexts hle
    (fun x hx => structured_stop_le hlen hphle hshle hdatale hx) hpadding
  refine ⟨hlen, hread, hph, hphle, hsh, hshle, hdata, hdatale, ?_, rfl⟩
  refine ⟨regions.map extent, hexts, ?_, hpad⟩
  rw [isChain_map]
  refine List.IsChain.imp_of_mem_imp ?_ (checkOverlap_eq_ok hover)
  intro x y hx hy hxy
  have := hle x hx
  simp only [extent, Extent.stop]
  omega

/-! ## The parts tile the image -/

/-- The numbers of the elements with a property, mapped, are the elements with it, mapped. -/
theorem map_filter_range {α β : Type} {p : α → Bool} {g : α → β} :
    ∀ {l : List α} {g' : ℕ → β}, (∀ i a, l[i]? = some a → p a = true → g' i = g a) →
      ((List.range l.length).filter fun i => (l[i]?).any p).map g' = (l.filter p).map g
  | [], g', _ => rfl
  | a :: l, g', h => by
    have ih : ((List.range l.length).filter fun i => (l[i]?).any p).map (fun i => g' (i + 1)) =
        (l.filter p).map g := map_filter_range fun i x hx => h (i + 1) x (by simpa using hx)
    have hshift : ((List.range l.length).map Nat.succ).filter (fun i => ((a :: l)[i]?).any p) =
        ((List.range l.length).filter fun i => (l[i]?).any p).map Nat.succ := by
      rw [filter_map]
      rfl
    rw [length_cons, range_succ_eq_map, filter_cons, filter_cons, hshift]
    by_cases ha : p a = true
    · simpa [ha, h 0 a, comp_def] using ih
    · simpa [ha, comp_def] using ih

namespace Parsed

variable {b : Bytes} {f : Elf64File}

variable (h : Parsed b f)

include h

/-- A region of the file lies inside it. -/
theorem stop_le {x : Extent} (hx : x ∈ f.structured) : x.stop ≤ b.length :=
  structured_stop_le h.ehdr_le h.phdrs_le h.shdrs_le h.data_le hx

/-- The content of a section that occupies the file stands where its header says. -/
theorem extentOf_content {i : ℕ} {sh : Shdr64} (hi : f.shdrs[i]? = some sh)
    (hocc : sh.occupiesFile = true) : f.extentOf (.content i) = sectionExtent sh := by
  have hle := h.data_le sh (mem_of_getElem? hi) hocc
  simp [extentOf, h.data_eq, hi, contentOf, hocc, sectionExtent, length_window hle]

/-- The address and the size of a section are words. -/
theorem shdr_lt {i : ℕ} {sh : Shdr64} (hi : f.shdrs[i]? = some sh) :
    sh.sh_addr < wordSize ∧ sh.sh_size < wordSize := by
  have hmem := mem_of_getElem? hi
  rw [h.shdrs_eq] at hmem
  obtain ⟨entry, -, rfl⟩ := mem_map.1 hmem
  exact Shdr64.parse_addr_lt f.cls entry

/-- The content of a section that occupies the file has the size of its header. -/
theorem length_data {i : ℕ} {sh : Shdr64} {data : Bytes}
    (hi : f.shdrs[i]? = some sh) (hdata : f.section_data[i]? = some data)
    (hocc : sh.occupiesFile = true) : data.length = sh.sh_size := by
  have hext := congrArg Extent.len (h.extentOf_content hi hocc)
  simpa [extentOf, hdata, sectionExtent] using hext

/-- The places of the parts: the structured regions, then the padding. -/
theorem extents_eq :
    f.pieces.map f.extentOf =
      f.structured ++ f.padding.map fun p => ⟨p.1, p.2.length⟩ := by
  have hsec : ((List.range f.shdrs.length).filter f.occupied).map (fun i =>
    f.extentOf (.content i)) =
      (f.shdrs.filter Shdr64.occupiesFile).map sectionExtent :=
    map_filter_range fun i sh hi hocc => h.extentOf_content hi hocc
  have hpad : (List.range f.padding.length).map (fun i => f.extentOf (.pad i)) =
      f.padding.map fun p => (⟨p.1, p.2.length⟩ : Extent) := by
    refine ext_getElem (by simp) fun i h1 h2 => ?_
    have hi : i < f.padding.length := by simpa using h2
    simp [extentOf, List.getElem?_eq_getElem hi]
  simp only [pieces, structured, tableExtent, map_append, map_cons, map_map, comp_def, hsec, hpad]
  split_ifs <;> rfl

/-- The places of the padding are the gaps that the regions leave. -/
theorem padding_extents {exts : List Extent} (hperm : exts.Perm f.structured)
    (hpad : f.padding = (gaps 0 exts b.length).map (chunkAt b)) :
    (f.padding.map fun p => (⟨p.1, p.2.length⟩ : Extent)) = gaps 0 exts b.length := by
  rw [hpad, map_map]
  conv_rhs => rw [← map_id (gaps 0 exts b.length)]
  refine map_congr_left fun g hg => ?_
  have hstart : ∀ y ∈ exts, y.start ≤ b.length := fun y hy =>
    (Nat.le_add_right _ _).trans (h.stop_le (hperm.mem_iff.1 hy))
  have hstop : g.start + g.len ≤ b.length := stop_le_of_mem_gaps hstart hg
  simp [chunkAt, length_window hstop]

/-- The parts of an accepted image tile it. -/
theorem tiles : Tiles (f.pieces.map f.extentOf) b.length := by
  obtain ⟨exts, hperm, hchain, hpad⟩ := h.layout
  have hcontig : Contig 0 (fillGaps 0 exts b.length) b.length :=
    contig_fillGaps (Nat.zero_le _) (fun x hx => h.stop_le (hperm.mem_iff.1 hx)) hchain
      fun x _ => Nat.zero_le _
  rw [h.extents_eq, h.padding_extents hperm hpad]
  exact hcontig.tiles.perm ((fillGaps_perm b.length exts 0).trans (hperm.append_right _))

end Parsed

/-! ## The writer lays the image -/

/-- A table whose entries are written as the parts of `b` at their places. -/
theorem lays_writeTable {offset entrySize : ℕ} {ws : List (Bytes → Option Bytes)}
    (hle : ∀ i < ws.length, offset + i * entrySize + entrySize ≤ b.length)
    (hws : ∀ i w, ws[i]? = some w → ∀ part : Bytes, part.length = entrySize →
      w part = some (window b (offset + i * entrySize) entrySize)) :
    Lays b (Set.Ico offset (offset + ws.length * entrySize)) (writeTable offset entrySize ws) := by
  have hlays : Lays b (⋃ e ∈ ws.zipIdx,
      Set.Ico (offset + e.2 * entrySize) (offset + e.2 * entrySize + entrySize))
      (writeTable offset entrySize ws) := by
    refine Lays.foldlM fun e he => ?_
    have hget : ws[e.2]? = some e.1 := mem_zipIdx_iff_getElem?.1 he
    have hlt : e.2 < ws.length := (List.getElem?_eq_some_iff.1 hget).1
    exact lays_modifySlice (hle e.2 hlt) (hws e.2 e.1 hget)
  refine hlays.mono fun j hj => ?_
  -- Position `j` lies in the entry with number `(j - offset) / entrySize`.
  obtain ⟨hlo, hhi⟩ := hj
  have hpos : 0 < entrySize := Nat.pos_of_ne_zero fun h0 => by simp [h0] at hhi; omega
  have hdiv : (j - offset) / entrySize < ws.length := by
    rw [Nat.div_lt_iff_lt_mul hpos]
    omega
  have hlow : (j - offset) / entrySize * entrySize ≤ j - offset := Nat.div_mul_le_self _ _
  have hup : j - offset < (j - offset) / entrySize * entrySize + entrySize :=
    Nat.lt_div_mul_add hpos
  refine Set.mem_iUnion₂.2 ⟨(ws[(j - offset) / entrySize], (j - offset) / entrySize), ?_, ?_⟩
  · exact mem_zipIdx_iff_getElem?.2 (List.getElem?_eq_getElem hdiv)
  · exact ⟨by dsimp only; omega, by dsimp only; omega⟩

/-- The entries of a table that was read are written back over it. -/
theorem lays_table {α : Type} {rd : Bytes → α} {wr : α → Bytes → Option Bytes}
    (hle : 0 < count → offset + count * entrySize ≤ b.length)
    (hback : ∀ off, off + entrySize ≤ b.length → ∀ part : Bytes, part.length = entrySize →
      wr (rd (window b off entrySize)) part = some (window b off entrySize)) :
    Lays b (Set.Ico offset (offset + count * entrySize))
      (writeTable offset entrySize
        (((tableEntries b offset count entrySize).map rd).map wr)) := by
  have hin : ∀ i < count, offset + i * entrySize + entrySize ≤ b.length := by
    intro i hi
    have hmul : (i + 1) * entrySize ≤ count * entrySize := Nat.mul_le_mul_right _ hi
    have hcount := hle (by omega)
    rw [Nat.succ_mul] at hmul
    omega
  have hlen : (((tableEntries b offset count entrySize).map rd).map wr).length = count := by
    simp [tableEntries]
  have hentry : ∀ i w, (((tableEntries b offset count entrySize).map rd).map wr)[i]? = some w →
      ∀ part : Bytes, part.length = entrySize →
        w part = some (window b (offset + i * entrySize) entrySize) := by
    intro i w hw part hpart
    have hi : i < count := by
      have := (List.getElem?_eq_some_iff.1 hw).1
      rwa [hlen] at this
    have hw' : wr (rd (window b (offset + i * entrySize) entrySize)) = w := by
      simpa [tableEntries, hi] using hw
    rw [← hw']
    exact hback _ (hin i hi) part hpart
  have hlays := lays_writeTable (by rwa [hlen]) hentry
  rwa [hlen] at hlays

namespace Parsed

variable {b : Bytes} {f : Elf64File}

/-- The contents of the sections are laid over their places. -/
theorem lays_sections (h : Parsed b f) :
    Lays b (⋃ sh ∈ f.shdrs.filter Shdr64.occupiesFile,
      Set.Ico sh.sh_offset (sh.sh_offset + sh.sh_size))
      (fun out => (f.shdrs.zip f.section_data).foldlM writeSection out) := by
  have hzip : f.shdrs.zip f.section_data = f.shdrs.map fun sh => (sh, contentOf b sh) := by
    rw [h.data_eq, map_prod_left_eq_zip]
  have hlays : Lays b (⋃ s ∈ f.shdrs.zip f.section_data,
      if s.1.occupiesFile then Set.Ico s.1.sh_offset (s.1.sh_offset + s.1.sh_size) else ∅)
      (fun out => (f.shdrs.zip f.section_data).foldlM writeSection out) := by
    refine Lays.foldlM fun s hs => ?_
    rw [hzip] at hs
    obtain ⟨sh, hsh, rfl⟩ := mem_map.1 hs
    by_cases hocc : sh.occupiesFile = true
    · simpa [writeSection, contentOf, hocc] using lays_copyInto (h.data_le sh hsh hocc)
    · simpa [writeSection, hocc] using lays_some b
  refine hlays.mono fun i hi => ?_
  obtain ⟨sh, hsh, hi⟩ := Set.mem_iUnion₂.1 hi
  obtain ⟨hmem, hocc⟩ := mem_filter.1 hsh
  refine Set.mem_iUnion₂.2 ⟨(sh, contentOf b sh), ?_, by simpa [hocc] using hi⟩
  rw [hzip]
  exact mem_map_of_mem hmem

/-- The padding is laid over the gaps. -/
theorem lays_padding {exts : List Extent} (h : Parsed b f) (hperm : exts.Perm f.structured)
    (hpad : f.padding = (gaps 0 exts b.length).map (chunkAt b)) :
    Lays b (⋃ g ∈ gaps 0 exts b.length, Set.Ico g.start (g.start + g.len))
      (fun out => writeAll out f.padding) := by
  have hstart : ∀ y ∈ exts, y.start ≤ b.length := fun y hy =>
    (Nat.le_add_right _ _).trans (h.stop_le (hperm.mem_iff.1 hy))
  rw [hpad]
  exact lays_gaps hstart

/-- The writer returns the image from which the file was read. -/
theorem writeToVec_eq (h : Parsed b f) : f.writeToVec = some b := by
  obtain ⟨exts, hperm, -, hpad⟩ := h.layout
  have hehdr : Lays b (Set.Ico 0 (ehdrSize f.cls))
      (fun out => modifySlice out 0 (ehdrSize f.cls) (f.ehdr.write f.cls)) := by
    rw [h.ehdr_eq]
    exact lays_head h.ehdr_le fun part hpart => Ehdr64.write_readAs h.ehdr_le hpart
  have hph : Lays b
      (Set.Ico f.ehdr.e_phoff (f.ehdr.e_phoff + f.ehdr.e_phnum * phdrSize f.cls))
      (writeTable f.ehdr.e_phoff (phdrSize f.cls) (f.phdrs.map fun p => p.write f.cls)) := by
    rw [h.phdrs_eq]
    exact lays_table h.phdrs_le fun off hoff part hpart => Phdr64.write_parse hoff hpart
  have hsh : Lays b
      (Set.Ico f.ehdr.e_shoff (f.ehdr.e_shoff + f.ehdr.e_shnum * shdrSize f.cls))
      (writeTable f.ehdr.e_shoff (shdrSize f.cls) (f.shdrs.map fun s => s.write f.cls)) := by
    rw [h.shdrs_eq]
    exact lays_table h.shdrs_le fun off hoff part hpart => Shdr64.write_parse hoff hpart
  have hall := hehdr.seq (hph.seq (hsh.seq (h.lays_sections.seq (h.lays_padding hperm hpad))))
  refine hall.eq_some (fun i hi => ?_) (by simp [h.size_eq])
  -- Every position lies in a region or in a gap.
  simp only [Set.mem_union, Set.mem_iUnion, Set.mem_Ico, exists_prop]
  have hcov : (∃ x ∈ exts, i ∈ x) ∨ ∃ g ∈ gaps 0 exts b.length, i ∈ g :=
    mem_or_mem_gaps (Nat.zero_le i) hi
  rcases hcov with ⟨x, hx, hix⟩ | ⟨g, hg, hig⟩
  · have hx' := hperm.mem_iff.1 hx
    simp only [structured, tableExtent, mem_cons, mem_append, mem_ite_nil_right,
      not_mem_nil, or_false, mem_map] at hx'
    rw [Extent.mem_def] at hix
    rcases hx' with rfl | (⟨-, rfl⟩ | ⟨-, rfl⟩) | ⟨sh, hsh', rfl⟩
    · exact .inl (by simpa using hix)
    · exact .inr (.inl hix)
    · exact .inr (.inr (.inl hix))
    · exact .inr (.inr (.inr (.inl ⟨sh, hsh', hix⟩)))
  · exact .inr (.inr (.inr (.inr ⟨g, hg, hig⟩)))

end Parsed

/-- Reading an image and writing it back gives the image, without a write outside of it, and every
byte of the image belongs to exactly one of its parts. -/
theorem parse_writeToVec (b : Bytes) (f : Elf64File) (h : parse b = .ok f) :
    f.writeToVec = some b ∧ Tiles (f.pieces.map f.extentOf) b.length :=
  ⟨(parse_spec h).writeToVec_eq, (parse_spec h).tiles⟩

/-- A 32-bit image with a section of four bytes, padding before the section-header table and two
bytes behind it. -/
def sampleImage : Bytes :=
  elfMagic ++ [1, 1, 1] ++ List.replicate 9 0 ++ toLe 2 1 ++ toLe 2 3 ++ toLe 4 1 ++ toLe 4 0 ++
    toLe 4 0 ++ toLe 4 60 ++ toLe 4 0 ++ toLe 2 52 ++ toLe 2 32 ++ toLe 2 0 ++ toLe 2 40 ++
    toLe 2 1 ++ toLe 2 0 ++ [0xde, 0xad, 0xbe, 0xef] ++ [0, 0, 0, 0] ++
    (toLe 4 0 ++ toLe 4 1 ++ toLe 4 0 ++ toLe 4 0 ++ toLe 4 52 ++ toLe 4 4 ++ toLe 4 0 ++
      toLe 4 0 ++ toLe 4 1 ++ toLe 4 0) ++ [0xaa, 0xbb]

theorem parse_writeToVec_sample :
    ∃ f, parse sampleImage = .ok f ∧ f.writeToVec = some sampleImage ∧
      Tiles (f.pieces.map f.extentOf) 102 := by
  have hok : (parse sampleImage).toOption.isSome = true := by decide +kernel
  cases h : parse sampleImage with
  | error e => simp [h, Except.toOption] at hok
  | ok f => exact ⟨f, rfl, parse_writeToVec sampleImage f h⟩

end Elf64File

end Univdreams.Elf
