import Univdreams.Macho.File

/-!
# Reading a Mach-O image and writing it back

`MachoFile.parse_spec` collects what the reader has established about an image that it accepts. The
load commands stand one behind the other in their table (`CommandsAt`), the segments lie inside the
image, and the padding is what the header, the table and the segments leave. Nothing is said about
how the segments lie to each other: every write lays bytes of the image over their own place, so
that overlapping writes agree (`Parsed.writeToVec_eq`).
-/

namespace Univdreams.Macho

open List Run Region

variable {commands : List LoadCommand} {b : Bytes}

/-! ## What each step of the reader establishes -/

/-- The length check, for a range that is a range of words. -/
theorem ensureLen_eq_ok {bytes : Bytes} {offset needed : ℕ} (hlt : offset + needed < wordSize)
    (h : ensureLen bytes offset needed = .ok ()) : offset + needed ≤ bytes.length := by
  unfold ensureLen at h
  rw [saturatingAdd_of_lt hlt] at h
  split_ifs at h with hlen
  · cases h
  · omega

/-- A header that was read from an image is written back as the first bytes of the image. -/
theorem MachHeader64.write_read {b part : Bytes} (hb : machHeader64Size ≤ b.length)
    (hlen : part.length = machHeader64Size) :
    (MachHeader64.read b).write part = some (window b 0 machHeader64Size) := by
  simp only [machHeader64Size] at hb hlen ⊢
  simp only [MachHeader64.write, MachHeader64.read]
  simp (disch := omega) only [toLe_readLe]
  exact writeAll_windows [(0, 4), (4, 4), (8, 4), (12, 4), (16, 4), (20, 4), (24, 4), (28, 4)]
    (by decide) (by omega) hlen

/-- The commands stand in the image from `a` up to `z`, one behind the other. -/
def CommandsAt (b : Bytes) : ℕ → List LoadCommand → ℕ → Prop
  | a, [], z => a = z
  | a, c :: cs, z => c = ⟨readLe 4 b a, readLe 4 b (a + 4), window b (a + 8) (c.cmdsize - 8)⟩ ∧
      8 ≤ c.cmdsize ∧ CommandsAt b (a + c.cmdsize) cs z

theorem CommandsAt.le {b : Bytes} : ∀ {cs : List LoadCommand} {a z : ℕ}, CommandsAt b a cs z → a ≤ z
  | [], _, _, h => le_of_eq h
  | _ :: _, _, _, h => (Nat.le_add_right _ _).trans h.2.2.le

/-- The load commands that are read lie end to end. -/
theorem commandsAt_of_loadCommandsFrom {b : Bytes} {z : ℕ} : ∀ {n a : ℕ} {cs : List LoadCommand},
    loadCommandsFrom b z n a = .ok cs → CommandsAt b a cs z
  | 0, a, cs, h => by
    unfold loadCommandsFrom at h
    split_ifs at h with hne
    · cases h
    · cases h
      exact not_not.1 hne
  | n + 1, a, cs, h => by
    simp only [loadCommandsFrom] at h
    split_ifs at h with hover hsize hend
    · cases h
    · cases h
    · cases h
    obtain ⟨body, hbody, h⟩ := bind_eq_ok.1 h
    obtain ⟨rest, hrest, rfl⟩ := steps₁_eq_ok.1 h
    obtain ⟨-, hbody⟩ := slice_eq_some.1 (orPanic_eq_ok.1 hbody)
    have hlen : a + readLe 4 b (a + 4) - (a + 8) = readLe 4 b (a + 4) - 8 := by omega
    refine ⟨?_, not_lt.1 hsize, commandsAt_of_loadCommandsFrom hrest⟩
    rw [hbody, hlen]

theorem segmentEnd_eq_ok {seg : Segment64} {stop : ℕ} (h : segmentEnd seg = .ok stop) :
    seg.fileoff + seg.filesize < wordSize ∧ stop = seg.fileoff + seg.filesize := by
  unfold segmentEnd at h
  cases hadd : checkedAdd seg.fileoff seg.filesize with
  | none => simp [hadd, fail] at h
  | some stop' =>
    rw [hadd] at h
    cases h
    exact checkedAdd_eq_some.1 hadd

/-- The content of a segment as the reader keeps it. -/
def contentOf (b : Bytes) (seg : Segment64) : Bytes := window b seg.fileoff seg.filesize

/-- The content of a segment is that at its offset, inside the file. -/
theorem segmentContent_eq_ok {b data : Bytes} {seg : Segment64}
    (h : segmentContent b seg = .ok data) : data = contentOf b seg ∧
      (0 < seg.filesize → seg.fileoff + seg.filesize ≤ b.length) := by
  unfold segmentContent at h
  split_ifs at h with hzero
  · cases h
    exact ⟨by simp [contentOf, window, hzero], by omega⟩
  obtain ⟨stop, hstop, h⟩ := bind_eq_ok.1 h
  obtain ⟨⟨⟩, hlen, h⟩ := bind_eq_ok.1 h
  obtain ⟨-, hdata⟩ := slice_eq_some.1 (orPanic_eq_ok.1 h)
  obtain ⟨hlt, rfl⟩ := segmentEnd_eq_ok hstop
  rw [Nat.add_sub_cancel_left] at hdata
  exact ⟨hdata, fun _ => ensureLen_eq_ok hlt hlen⟩

theorem segmentContents_eq_ok {b : Bytes} : ∀ {segs : List Segment64} {data : List Bytes},
    segmentContents b segs = .ok data → data = segs.map (contentOf b) ∧
      ∀ seg ∈ segs, 0 < seg.filesize → seg.fileoff + seg.filesize ≤ b.length
  | [], data, h => by
    cases h
    simp
  | seg :: segs, data, h => by
    obtain ⟨d, ds, hd, hds, rfl⟩ := steps₂_eq_ok.1 h
    obtain ⟨rfl, hle⟩ := segmentContent_eq_ok hd
    obtain ⟨rfl, hles⟩ := segmentContents_eq_ok hds
    exact ⟨rfl, forall_mem_cons.2 ⟨hle, hles⟩⟩

/-- The place of a segment in the file. -/
def segmentExtent (seg : Segment64) : Extent := ⟨seg.fileoff, seg.filesize⟩

/-- Whether a segment occupies the file. -/
def Segment64.occupiesFile (seg : Segment64) : Bool := 0 < seg.filesize

/-- The regions of segments are those that occupy the file. -/
theorem segmentRegions_eq_ok : ∀ {segs : List Segment64} {rs : List Region},
    segmentRegions segs = .ok rs →
    rs.map extent = (segs.filter Segment64.occupiesFile).map segmentExtent ∧
      ∀ r ∈ rs, r.start ≤ r.stop
  | [], rs, h => by
    cases h
    simp
  | seg :: segs, rs, h => by
    unfold segmentRegions at h
    split_ifs at h with hzero
    · rw [filter_cons_of_neg (by simp [Segment64.occupiesFile, hzero])]
      exact segmentRegions_eq_ok h
    obtain ⟨stop, hstop, h⟩ := bind_eq_ok.1 h
    obtain ⟨rest, hrest, rfl⟩ := steps₁_eq_ok.1 h
    obtain ⟨hexts, hle⟩ := segmentRegions_eq_ok hrest
    obtain ⟨-, hstop'⟩ := segmentEnd_eq_ok hstop
    rw [filter_cons_of_pos (by simp [Segment64.occupiesFile]; omega), map_cons, map_cons, hexts]
    refine ⟨?_, forall_mem_cons.2 ⟨by simp only; omega, hle⟩⟩
    simp [extent, segmentExtent, hstop']

/-- The place of the load-command table. -/
def tableExtent (header : MachHeader64) : List Extent :=
  if 0 < header.sizeofcmds then [⟨machHeader64Size, header.sizeofcmds⟩] else []

/-- The places of the structured regions of a file. -/
def structured (header : MachHeader64) (commands : List LoadCommand) : List Extent :=
  ⟨0, machHeader64Size⟩ :: (tableExtent header ++
    ((segmentsOf commands).filter Segment64.occupiesFile).map segmentExtent)

/-- The regions are the structured extents, up to order. -/
theorem buildRegions_eq_ok {header : MachHeader64}
    {regions : List Region} (h : buildRegions header commands = .ok regions) :
    (regions.map extent).Perm (structured header commands) ∧
      ∀ r ∈ regions, r.start ≤ r.stop := by
  obtain ⟨segs, hsegs, h⟩ := bind_eq_ok.1 h
  obtain ⟨hexts, hle⟩ := segmentRegions_eq_ok hsegs
  have hsorted := pure_eq_ok.1 h
  generalize htable : (if 0 < header.sizeofcmds then [(⟨"load-command table", machHeader64Size,
    machHeader64Size + header.sizeofcmds⟩ : Region)] else []) = table at hsorted
  have htexts : table.map extent = tableExtent header ∧ ∀ r ∈ table, r.start ≤ r.stop := by
    rw [← htable, tableExtent]
    split_ifs <;> simp [extent]
  have hperm := sortByStart_perm (⟨"Mach-O header", 0, machHeader64Size⟩ :: (table ++ segs))
  rw [hsorted] at hperm
  constructor
  · have hmap := hperm.map extent
    simpa [structured, hexts, htexts.1, extent] using hmap
  intro r hr
  have hr' := hperm.mem_iff.1 hr
  simp only [mem_cons, mem_append] at hr'
  rcases hr' with rfl | hr' | hr'
  · simp
  · exact htexts.2 r hr'
  · exact hle r hr'

/-! ## What the reader establishes -/

namespace MachoFile

/-- What the reader has established about the image `b` when it returns the file `f`. -/
structure Parsed (b : Bytes) (f : MachoFile) : Prop where
  header_le : machHeader64Size ≤ b.length
  header_eq : f.header = MachHeader64.read b
  table_le : machHeader64Size + f.header.sizeofcmds ≤ b.length
  commands_at : CommandsAt b machHeader64Size f.commands (machHeader64Size + f.header.sizeofcmds)
  data_eq : f.segment_data = f.segments.map (contentOf b)
  indices_eq : f.segment_cmd_indices = f.segments.map Segment64.cmd_index
  data_le : ∀ seg ∈ f.segments, 0 < seg.filesize → seg.fileoff + seg.filesize ≤ b.length
  /-- The padding is what the structured regions leave, in whatever order they lie. -/
  layout : ∃ exts : List Extent, exts.Perm (structured f.header f.commands) ∧
    f.padding = (gaps 0 exts b.length).map (chunkAt b)
  size_eq : f.file_size = b.length

/-- A structured region lies inside the image. -/
theorem structured_stop_le {header : MachHeader64}
    (hhdr : machHeader64Size ≤ b.length) (htab : machHeader64Size + header.sizeofcmds ≤ b.length)
    (hseg : ∀ seg ∈ segmentsOf commands, 0 < seg.filesize →
      seg.fileoff + seg.filesize ≤ b.length)
    {x : Extent} (hx : x ∈ structured header commands) : x.stop ≤ b.length := by
  simp only [structured, tableExtent, mem_cons, mem_append, mem_ite_nil_right,
    not_mem_nil, or_false, mem_map, mem_filter] at hx
  rcases hx with rfl | ⟨-, rfl⟩ | ⟨seg, ⟨hmem, hocc⟩, rfl⟩
  · simpa [Extent.stop] using hhdr
  · exact htab
  · exact hseg seg hmem (by simpa [Segment64.occupiesFile] using hocc)

/-- What the reader has established about an image that it accepts. -/
theorem parse_spec {f : MachoFile} (h : parse b = .ok f) : Parsed b f := by
  unfold parse at h
  split_ifs at h with hshort
  · cases h
  obtain ⟨-, header, -, hheader, h⟩ := bind₂_eq_ok.1 h
  split_ifs at h with hcpu
  · cases h
  obtain ⟨commands, hcommands, h⟩ := bind_eq_ok.1 h
  obtain ⟨⟨data, indices⟩, regions, padding, hdata, hregions, hpadding, rfl⟩ := steps₃_eq_ok.1 h
  -- The header.
  obtain ⟨⟨⟩, hhlen, rfl⟩ := steps₁_eq_ok.1 hheader
  have hhdr : machHeader64Size ≤ b.length := by
    simpa using ensureLen_eq_ok (by decide) hhlen
  -- The load commands.
  obtain ⟨⟨⟩, htlen, hloop⟩ := bind_eq_ok.1 hcommands
  have htab : machHeader64Size + (MachHeader64.read b).sizeofcmds ≤ b.length := by
    refine ensureLen_eq_ok ?_ htlen
    have hlt : (MachHeader64.read b).sizeofcmds < 256 ^ 4 := readLe_lt 4 b 20
    simp only [machHeader64Size, wordSize]
    omega
  -- The segments, and what they and the header leave.
  obtain ⟨data', hdata', hpair⟩ := steps₁_eq_ok.1 hdata
  obtain ⟨rfl, rfl⟩ := Prod.mk.inj hpair
  obtain ⟨rfl, hseg⟩ := segmentContents_eq_ok hdata'
  obtain ⟨hexts, hle⟩ := buildRegions_eq_ok hregions
  have hpad := padding_eq hexts hle (fun x hx => structured_stop_le hhdr htab hseg hx) hpadding
  exact ⟨hhdr, rfl, htab, commandsAt_of_loadCommandsFrom hloop, rfl, rfl, hseg,
    ⟨_, hexts, hpad⟩, rfl⟩

/-! ## The writer lays the image -/

/-- Pieces of the image, each written over its own place. -/
theorem lays_writeAll {ws : List (ℕ × Bytes)}
    (h : ∀ w ∈ ws, w.1 + w.2.length ≤ b.length ∧ w.2 = window b w.1 w.2.length) :
    Lays b (⋃ w ∈ ws, Set.Ico w.1 (w.1 + w.2.length)) (fun out => writeAll out ws) := by
  refine Lays.foldlM fun w hw => ?_
  obtain ⟨hle, heq⟩ := h w hw
  have hlays := lays_copyInto hle
  rwa [← heq] at hlays

/-- A command is written over its place in the table. -/
theorem lays_command {a n : ℕ} (hn : 8 ≤ n) (hle : a + n ≤ b.length) :
    Lays b (Set.Ico a (a + n)) fun out => writeAll out [(a, toLe 4 (readLe 4 b a)),
      (a + 4, toLe 4 (readLe 4 b (a + 4))), (a + 8, window b (a + 8) (n - 8))] := by
  have hbody : (window b (a + 8) (n - 8)).length = n - 8 := length_window (by omega)
  rw [toLe_readLe (by omega), toLe_readLe (by omega)]
  have hfour : (window b a 4).length = 4 ∧ (window b (a + 4) 4).length = 4 :=
    ⟨length_window (by omega), length_window (by omega)⟩
  refine (lays_writeAll ?_).mono fun i hi => ?_
  · simp only [forall_mem_cons, not_mem_nil, false_implies, implies_true, and_true, hbody, hfour]
    omega
  simp only [mem_cons, not_mem_nil, or_false, Set.iUnion_iUnion_eq_or_left,
    Set.iUnion_iUnion_eq_left, Set.mem_union, Set.mem_Ico, hbody, hfour] at hi ⊢
  omega

/-- The commands are written over their table. -/
theorem lays_commands {b : Bytes} {z : ℕ} (hz : z ≤ b.length) :
    ∀ {cs : List LoadCommand} {a : ℕ}, CommandsAt b a cs z → ∀ (out : Bytes) (T : Set ℕ),
      Agrees b out T → ∃ out', cs.foldlM writeCommand (out, a) = some (out', z) ∧
        Agrees b out' (T ∪ Set.Ico a z)
  | [], a, h, out, T, hag => by
    obtain rfl : a = z := h
    exact ⟨out, rfl, by simpa using hag⟩
  | c :: cs, a, ⟨hc, hsize, hrest⟩, out, T, hag => by
    have hle := hrest.le
    obtain ⟨out1, hw, hag1⟩ := lays_command hsize (hle.trans hz) out T hag
    obtain ⟨out2, hfold, hag2⟩ := lays_commands hz hrest out1 _ hag1
    have hone : writeCommand (out, a) c = some (out1, a + c.cmdsize) := by
      have hcmd := congrArg LoadCommand.cmd hc
      have hcmdsize := congrArg LoadCommand.cmdsize hc
      have hbody := congrArg LoadCommand.body hc
      simp only at hcmd hcmdsize hbody
      rw [← hcmd, ← hcmdsize, ← hbody] at hw
      simp only [writeCommand, hw]
      rfl
    refine ⟨out2, by rw [foldlM_cons, hone]; exact hfold, hag2.length_eq, fun i hi => ?_⟩
    apply hag2.get_eq
    rcases hi with hi | hi
    · exact .inl (.inl hi)
    by_cases hlt : i < a + c.cmdsize
    · exact .inl (.inr ⟨hi.1, hlt⟩)
    · exact .inr ⟨not_lt.1 hlt, hi.2⟩

/-- A segment of the file is read back from the command with its number. -/
theorem parse_of_mem_segmentsOf {seg : Segment64} (h : seg ∈ segmentsOf commands) :
    (commands[seg.cmd_index]?).bind (Segment64.parse seg.cmd_index) = some seg := by
  obtain ⟨⟨c, i⟩, hc, hparse⟩ := mem_filterMap.1 h
  have hindex : seg.cmd_index = i := by
    unfold Segment64.parse at hparse
    split_ifs at hparse
    obtain ⟨sections, -, rfl⟩ := steps₁_eq_some.1 hparse
    rfl
  rw [hindex, mem_zipIdx_iff_getElem?.1 hc]
  exact hparse

namespace Parsed

variable {b : Bytes} {f : MachoFile}

/-- The contents of the segments are laid over their places. -/
theorem lays_segments (h : Parsed b f) :
    Lays b (⋃ seg ∈ f.segments.filter Segment64.occupiesFile,
      Set.Ico seg.fileoff (seg.fileoff + seg.filesize))
      (fun out => f.segment_data.zipIdx.foldlM f.writeSegment out) := by
  have hlays : Lays b (⋃ d ∈ f.segment_data.zipIdx, (f.segments[d.2]?).elim ∅ fun seg =>
      Set.Ico seg.fileoff (seg.fileoff + seg.filesize))
      (fun out => f.segment_data.zipIdx.foldlM f.writeSegment out) := by
    refine Lays.foldlM fun d hd => ?_
    have hget := mem_zipIdx_iff_getElem?.1 hd
    rw [h.data_eq, List.getElem?_map, Option.map_eq_some_iff] at hget
    obtain ⟨seg, hseg, hcontent⟩ := hget
    have hmem : seg ∈ f.segments := mem_of_getElem? hseg
    have hindex : f.segment_cmd_indices[d.2]? = some seg.cmd_index := by
      rw [h.indices_eq, List.getElem?_map, hseg]
      rfl
    simp only [writeSegment, hindex, Option.bind_eq_bind, Option.bind_some,
      parse_of_mem_segmentsOf hmem, hseg, Option.elim_some]
    by_cases hpos : 0 < seg.filesize
    · have hle := h.data_le seg hmem hpos
      have hne : contentOf b seg ≠ [] := by
        rw [← length_pos_iff, contentOf, length_window hle]
        exact hpos
      simp only [← hcontent, if_pos (And.intro hpos hne)]
      exact lays_copyInto hle
    · have hzero : seg.filesize = 0 := by omega
      simpa [hpos, hzero] using lays_some b
  refine hlays.mono fun i hi => ?_
  obtain ⟨seg, hseg, hi⟩ := Set.mem_iUnion₂.1 hi
  obtain ⟨k, hk⟩ := mem_iff_getElem?.1 (mem_filter.1 hseg).1
  refine Set.mem_iUnion₂.2 ⟨(contentOf b seg, k), ?_, by simpa [hk] using hi⟩
  rw [mem_zipIdx_iff_getElem?, h.data_eq, List.getElem?_map, hk]
  rfl

/-- The writer returns the image from which the file was read. -/
theorem writeToVec_eq (h : Parsed b f) : f.writeToVec = some b := by
  obtain ⟨exts, hperm, hpad⟩ := h.layout
  have hhdr : Lays b (Set.Ico 0 machHeader64Size)
      (fun out => modifySlice out 0 machHeader64Size f.header.write) := by
    rw [h.header_eq]
    exact lays_head h.header_le fun part hpart => MachHeader64.write_read h.header_le hpart
  have htab : Lays b (Set.Ico machHeader64Size (machHeader64Size + f.header.sizeofcmds))
      (writeCommands f.commands) := by
    intro out T hag
    obtain ⟨out', hfold, hag'⟩ := lays_commands h.table_le h.commands_at out T hag
    exact ⟨out', by simp [writeCommands, hfold], hag'⟩
  have hstart : ∀ x ∈ exts, x.start ≤ b.length := fun x hx =>
    (Nat.le_add_right _ _).trans
      (structured_stop_le h.header_le h.table_le h.data_le (hperm.mem_iff.1 hx))
  have hgaps := lays_gaps hstart
  rw [← hpad] at hgaps
  have hall := h.lays_segments.seq (hhdr.seq (htab.seq hgaps))
  refine hall.eq_some (fun i hi => ?_) (by simp [h.size_eq])
  -- Every position lies in a region or in a gap.
  simp only [Set.mem_union, Set.mem_iUnion, Set.mem_Ico, exists_prop]
  have hcov : (∃ x ∈ exts, i ∈ x) ∨ ∃ g ∈ gaps 0 exts b.length, i ∈ g :=
    mem_or_mem_gaps (Nat.zero_le i) hi
  rcases hcov with ⟨x, hx, hix⟩ | ⟨g, hg, hig⟩
  · have hx' := hperm.mem_iff.1 hx
    simp only [structured, tableExtent, mem_cons, mem_append, mem_ite_nil_right,
      not_mem_nil, or_false, mem_map] at hx'
    rw [Extent.mem_def] at hix
    rcases hx' with rfl | ⟨-, rfl⟩ | ⟨seg, hseg, rfl⟩
    · exact .inr (.inl (by simpa using hix))
    · exact .inr (.inr (.inl hix))
    · exact .inl ⟨seg, hseg, hix⟩
  · exact .inr (.inr (.inr ⟨g, hg, hig⟩))

end Parsed

/-- Reading an image and writing it back gives the image, without a write outside of it, whatever
the load commands are and however the segments lie. -/
theorem parse_writeToVec_eq (b : Bytes) (f : MachoFile) (h : parse b = .ok f) :
    f.writeToVec = some b :=
  (parse_spec h).writeToVec_eq

/-- An image with two segments that overlap, the first over the header and the load commands, an
unknown command between them, and two bytes behind all. -/
def overlappingImage : Bytes :=
  toLe 4 mhMagic64 ++ toLe 4 cpuTypeArm64 ++ toLe 4 0 ++ toLe 4 2 ++ toLe 4 3 ++ toLe 4 156 ++
    toLe 4 0 ++ toLe 4 0 ++
    (toLe 4 lcSegment64 ++ toLe 4 72 ++ List.replicate 32 0 ++ toLe 8 0 ++ toLe 8 190 ++
      List.replicate 16 0) ++
    (toLe 4 0x77 ++ toLe 4 12 ++ [1, 2, 3, 4]) ++
    (toLe 4 lcSegment64 ++ toLe 4 72 ++ List.replicate 32 0 ++ toLe 8 180 ++ toLe 8 12 ++
      List.replicate 16 0) ++
    [0xde, 0xad, 0xbe, 0xef, 0xaa, 0xbb]

theorem parse_writeToVec_overlapping :
    ∃ f, parse overlappingImage = .ok f ∧ f.segments.length = 2 ∧
      f.writeToVec = some overlappingImage := by
  have hok : ((parse overlappingImage).toOption.any fun f => f.segments.length = 2) = true := by
    decide +kernel
  cases h : parse overlappingImage with
  | error e => simp [h, Except.toOption] at hok
  | ok f =>
    have hseg : f.segments.length = 2 := by simpa [h, Except.toOption] using hok
    exact ⟨f, rfl, hseg, parse_writeToVec_eq overlappingImage f h⟩

end MachoFile

end Univdreams.Macho
