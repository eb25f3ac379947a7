import Univdreams.Words
import Univdreams.Regions

/-!
# Mach-O images

`MachoFile::parse` and `MachoFile::write_to_vec` of `src/format/macho.rs`, for thin 64-bit
little-endian images. The reader interprets the header and cuts the load-command table into
commands, keeps the file content of each segment, and keeps what lies outside of all of these as
padding. Segments may overlap each other and the header: an executable's first segment starts at
offset zero. The writer lays the segments, the header, the commands and the padding over a buffer of
zeros, in this order, and panics where a write leaves the buffer.
-/

namespace Univdreams.Macho

/-- `MH_MAGIC_64`. -/
def mhMagic64 : ℕ := 0xfeedfacf

/-- `MH_MAGIC`. -/
def mhMagic : ℕ := 0xfeedface

/-- `FAT_MAGIC`, which is stored big-endian. -/
def fatMagic : ℕ := 0xcafebabe

/-- `FAT_MAGIC_64`. -/
def fatMagic64 : ℕ := 0xcafebabf

/-- `CPU_TYPE_X86_64`. -/
def cpuTypeX8664 : ℕ := 0x01000007

/-- `CPU_TYPE_ARM64`. -/
def cpuTypeArm64 : ℕ := 0x0100000c

/-- `LC_SEGMENT_64`: the kind of the load commands that describe a segment. -/
def lcSegment64 : ℕ := 0x19

/-- `MACH_HEADER_64_SIZE`. -/
def machHeader64Size : ℕ := 32

/-- The errors of the Mach-O reader. The label of an overflowing region is `segment #{idx}
({name:?})`; here its parts are kept. -/
inductive Error where
  | truncated (offset needed available : ℕ)
  | badMagic (magic : ℕ)
  | fatNotSupported
  | macho32NotSupported (magic : ℕ)
  | unsupportedCpu (cputype : ℕ)
  | badLoadCmdSize (offset cmdsize : ℕ)
  | loadCmdOverrun (cursor stop : ℕ)
  | regionOverflow (idx : ℕ) (segname : Bytes) (offset size : ℕ)
  deriving DecidableEq, Repr

variable (bytes : Bytes)

/-- `ensure_len`. -/
def ensureLen (offset needed : ℕ) : Run Error Unit :=
  if bytes.length < saturatingAdd offset needed then
    fail (.truncated offset needed bytes.length)
  else .ok ()

/-! ## The header -/

/-- `MachHeader64`. -/
structure MachHeader64 where
  magic : ℕ
  cputype : ℕ
  cpusubtype : ℕ
  filetype : ℕ
  ncmds : ℕ
  sizeofcmds : ℕ
  flags : ℕ
  reserved : ℕ
  deriving DecidableEq, Repr

namespace MachHeader64

/-- The fields of the header of an image. -/
def read (bytes : Bytes) : MachHeader64 where
  magic := readLe 4 bytes 0
  cputype := readLe 4 bytes 4
  cpusubtype := readLe 4 bytes 8
  filetype := readLe 4 bytes 12
  ncmds := readLe 4 bytes 16
  sizeofcmds := readLe 4 bytes 20
  flags := readLe 4 bytes 24
  reserved := readLe 4 bytes 28

/-- `MachHeader64::parse`. -/
def parse (bytes : Bytes) : Run Error MachHeader64 := do
  ensureLen bytes 0 machHeader64Size
  return read bytes

/-- `MachHeader64::write`. -/
def write (h : MachHeader64) (out : Bytes) : Option Bytes :=
  writeAll out [(0, toLe 4 h.magic), (4, toLe 4 h.cputype), (8, toLe 4 h.cpusubtype),
    (12, toLe 4 h.filetype), (16, toLe 4 h.ncmds), (20, toLe 4 h.sizeofcmds), (24, toLe 4 h.flags),
    (28, toLe 4 h.reserved)]

end MachHeader64

/-! ## Load commands and segments -/

/-- `LoadCommand`: the body is what follows `cmd` and `cmdsize`. -/
structure LoadCommand where
  cmd : ℕ
  cmdsize : ℕ
  body : Bytes
  deriving DecidableEq, Repr

/-- `Section64`. -/
structure Section64 where
  sectname : Bytes
  segname : Bytes
  addr : ℕ
  size : ℕ
  offset : ℕ
  align : ℕ
  reloff : ℕ
  nreloc : ℕ
  flags : ℕ
  reserved1 : ℕ
  reserved2 : ℕ
  reserved3 : ℕ
  deriving DecidableEq, Repr

/-- `Segment64`. -/
structure Segment64 where
  cmd_index : ℕ
  segname : Bytes
  vmaddr : ℕ
  vmsize : ℕ
  fileoff : ℕ
  filesize : ℕ
  maxprot : ℕ
  initprot : ℕ
  nsects : ℕ
  flags : ℕ
  sections : List Section64
  deriving DecidableEq, Repr

/-- The fields of a section entry of 80 bytes. -/
def Section64.read (s : Bytes) : Section64 where
  sectname := window s 0 16
  segname := window s 16 16
  addr := readLe 8 s 32
  size := readLe 8 s 40
  offset := readLe 4 s 48
  align := readLe 4 s 52
  reloff := readLe 4 s 56
  nreloc := readLe 4 s 60
  flags := readLe 4 s 64
  reserved1 := readLe 4 s 68
  reserved2 := readLe 4 s 72
  reserved3 := readLe 4 s 76

namespace Segment64

/-- The loop over `n` section entries of a segment, from number `i` on. It ends at the first one
that the body does not hold. -/
def readSections (body : Bytes) : (n i : ℕ) → Option (List Section64)
  | 0, _ => some []
  | n + 1, i =>
    if body.length < 64 + i * 80 + 80 then none
    else do
      let rest ← readSections body n (i + 1)
      return Section64.read (window body (64 + i * 80) 80) :: rest

/-- `Segment64::parse`. -/
def parse (cmd_index : ℕ) (cmd : LoadCommand) : Option Segment64 :=
  if cmd.cmd ≠ lcSegment64 then none
  else if cmd.body.length < 64 then none
  else do
    let sections ← readSections cmd.body (readLe 4 cmd.body 56) 0
    return {
      cmd_index := cmd_index
      segname := window cmd.body 0 16
      vmaddr := readLe 8 cmd.body 16
      vmsize := readLe 8 cmd.body 24
      fileoff := readLe 8 cmd.body 32
      filesize := readLe 8 cmd.body 40
      maxprot := readLe 4 cmd.body 48
      initprot := readLe 4 cmd.body 52
      nsects := readLe 4 cmd.body 56
      flags := readLe 4 cmd.body 60
      sections := sections }

end Segment64

/-- The segments of the commands, with their numbers. A command too short for its sections describes
none. -/
def segmentsOf (commands : List LoadCommand) : List Segment64 :=
  commands.zipIdx.filterMap fun c => Segment64.parse c.2 c.1

/-! ## Reading -/

/-- The loop of `parse_load_commands`: `n` commands from `cursor` on. -/
def loadCommandsFrom (bytes : Bytes) (tableEnd : ℕ) : (n cursor : ℕ) → Run Error (List LoadCommand)
  | 0, cursor => if cursor ≠ tableEnd then fail (.loadCmdOverrun cursor tableEnd) else return []
  | n + 1, cursor =>
    if cursor + 8 > tableEnd then fail (.loadCmdOverrun cursor tableEnd)
    else
      let cmd := readLe 4 bytes cursor
      let cmdsize := readLe 4 bytes (cursor + 4)
      if cmdsize < 8 then fail (.badLoadCmdSize cursor cmdsize)
      else if cursor + cmdsize > tableEnd then fail (.loadCmdOverrun (cursor + cmdsize) tableEnd)
      else do
        let body ← orPanic (slice bytes (cursor + 8) (cursor + cmdsize))
        let rest ← loadCommandsFrom bytes tableEnd n (cursor + cmdsize)
        return ⟨cmd, cmdsize, body⟩ :: rest

/-- `parse_load_commands`. -/
def parseLoadCommands (header : MachHeader64) : Run Error (List LoadCommand) := do
  ensureLen bytes machHeader64Size header.sizeofcmds
  loadCommandsFrom bytes (machHeader64Size + header.sizeofcmds) header.ncmds machHeader64Size

/-- The end of a segment in the file. -/
def segmentEnd (seg : Segment64) : Run Error ℕ :=
  match checkedAdd seg.fileoff seg.filesize with
  | none => fail (.regionOverflow seg.cmd_index seg.segname seg.fileoff seg.filesize)
  | some stop => .ok stop

/-- The file content of one segment. -/
def segmentContent (seg : Segment64) : Run Error Bytes :=
  if seg.filesize = 0 then return []
  else do
    let stop ← segmentEnd seg
    ensureLen bytes seg.fileoff seg.filesize
    orPanic (slice bytes seg.fileoff stop)

/-- The file contents of the segments, up to the first that does not lie in the file. -/
def segmentContents (bytes : Bytes) : List Segment64 → Run Error (List Bytes)
  | [] => return []
  | seg :: segs => do
    let data ← segmentContent bytes seg
    let rest ← segmentContents bytes segs
    return data :: rest

/-- `collect_segment_data`: the contents, and the numbers of the segments' commands. -/
def collectSegmentData (commands : List LoadCommand) : Run Error (List Bytes × List ℕ) := do
  let data ← segmentContents bytes (segmentsOf commands)
  return (data, (segmentsOf commands).map Segment64.cmd_index)

/-- The regions of the segments that occupy the file. The label is not read again. -/
def segmentRegions : List Segment64 → Run Error (List Region)
  | [] => return []
  | seg :: segs =>
    if seg.filesize = 0 then segmentRegions segs
    else do
      let stop ← segmentEnd seg
      let rest ← segmentRegions segs
      return ⟨s!"segment #{seg.cmd_index}", seg.fileoff, stop⟩ :: rest

/-- `build_regions`: the structured regions, sorted by their start. -/
def buildRegions (header : MachHeader64) (commands : List LoadCommand) :
    Run Error (List Region) := do
  let segs ← segmentRegions (segmentsOf commands)
  let table := if 0 < header.sizeofcmds then
    [⟨"load-command table", machHeader64Size, machHeader64Size + header.sizeofcmds⟩] else []
  return Region.sortByStart (⟨"Mach-O header", 0, machHeader64Size⟩ :: (table ++ segs))

/-- `MachoFile`. -/
structure MachoFile where
  header : MachHeader64
  commands : List LoadCommand
  segment_data : List Bytes
  segment_cmd_indices : List ℕ
  padding : List (ℕ × Bytes)
  file_size : ℕ
  deriving DecidableEq, Repr

namespace MachoFile

/-- The checks of the magic number. That of a fat wrapper, stored big-endian, shows up with its
bytes swapped. -/
def checkMagic (bytes : Bytes) : Run Error Unit :=
  let magic := readLe 4 bytes 0
  let magicBe := ofLe (window bytes 0 4).reverse
  if magic = fatMagic ∨ magic = fatMagic64 then fail .fatNotSupported
  else if magicBe = fatMagic ∨ magicBe = fatMagic64 then fail .fatNotSupported
  else if magic = mhMagic ∨ magic = 0xcefaedfe then fail (.macho32NotSupported magic)
  else if magic ≠ mhMagic64 then fail (.badMagic magic)
  else .ok ()

/-- `MachoFile::parse`. -/
def parse (bytes : Bytes) : Run Error MachoFile :=
  if bytes.length < 4 then fail (.truncated 0 4 bytes.length)
  else do
    checkMagic bytes
    let header ← MachHeader64.parse bytes
    if header.cputype ≠ cpuTypeX8664 ∧ header.cputype ≠ cpuTypeArm64 then
      fail (.unsupportedCpu header.cputype)
    else do
      let commands ← parseLoadCommands bytes header
      let (segment_data, segment_cmd_indices) ← collectSegmentData bytes commands
      let regions ← buildRegions header commands
      let padding ← orPanic (computePadding bytes regions)
      return ⟨header, commands, segment_data, segment_cmd_indices, padding, bytes.length⟩

/-- `MachoFile::segments`. -/
def segments (f : MachoFile) : List Segment64 := segmentsOf f.commands

/-! ## Writing -/

/-- Copy the content of the segment whose command has the number at `i` in the list of indices. -/
def writeSegment (f : MachoFile) (out : Bytes) (data : Bytes × ℕ) : Option Bytes := do
  let cmdIdx ← f.segment_cmd_indices[data.2]?
  match (f.commands[cmdIdx]?).bind (Segment64.parse cmdIdx) with
  | some seg => if 0 < seg.filesize ∧ data.1 ≠ [] then copyInto out seg.fileoff data.1 else some out
  | none => some out

/-- Write one command at `cursor`, and the place behind it. -/
def writeCommand (s : Bytes × ℕ) (c : LoadCommand) : Option (Bytes × ℕ) := do
  let out ← writeAll s.1 [(s.2, toLe 4 c.cmd), (s.2 + 4, toLe 4 c.cmdsize), (s.2 + 8, c.body)]
  return (out, s.2 + c.cmdsize)

/-- Write the load-command table. -/
def writeCommands (commands : List LoadCommand) (out : Bytes) : Option Bytes := do
  let (out, _) ← commands.foldlM writeCommand (out, machHeader64Size)
  return out

/-- `MachoFile::write_to_vec`. -/
def writeToVec (f : MachoFile) : Option Bytes := do
  let out := List.replicate f.file_size 0
  let out ← f.segment_data.zipIdx.foldlM f.writeSegment out
  let out ← modifySlice out 0 machHeader64Size f.header.write
  let out ← writeCommands f.commands out
  writeAll out f.padding

end MachoFile

end Univdreams.Macho
