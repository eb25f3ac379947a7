import Univdreams.Elf.Header
import Univdreams.Regions

/-!
# ELF images

`Elf64File::parse` and `Elf64File::write_to_vec` of `src/format/elf.rs`. The reader interprets the
ELF header and the two header tables, keeps the content of each section that occupies the file, and
keeps what lies between these regions as padding. The writer lays all of that over a buffer of
zeros, and panics where a write leaves the buffer.

`Elf64File.pieces` names the parts into which the reader cuts the image, and `Elf64File.extentOf`
says where each of them stands in a file.
-/

namespace Univdreams.Elf

/-- A parsed ELF file. `section_data` is parallel to `shdrs`, and empty for a section without
content. -/
structure Elf64File where
  cls : ElfClass
  ehdr : Ehdr64
  phdrs : List Phdr64
  shdrs : List Shdr64
  section_data : List Bytes
  padding : List (ℕ × Bytes)
  file_size : ℕ
  deriving DecidableEq, Repr

/-! ## The structured regions -/

/-- A region of `size` bytes at `offset`. -/
def regionOf (label : String) (offset size : ℕ) : Run Error Region :=
  match checkedAdd offset size with
  | none => fail (.regionOverflow label offset size)
  | some stop => .ok ⟨label, offset, stop⟩

/-- The region of a header table, when the table has an entry. -/
def tableRegion (label : String) (offset count entrySize : ℕ) : Run Error (List Region) :=
  if 0 < count then do
    let r ← regionOf label offset (count * entrySize)
    return [r]
  else return []

/-- The regions of the sections that occupy the file, the first of them with number `i`. -/
def sectionRegions (i : ℕ) : List Shdr64 → Run Error (List Region)
  | [] => return []
  | sh :: shs =>
    if sh.occupiesFile then do
      let r ← regionOf s!"section #{i}" sh.sh_offset sh.sh_size
      let rs ← sectionRegions (i + 1) shs
      return r :: rs
    else sectionRegions (i + 1) shs

/-- The overlap check, of each region against the next one only. -/
def checkOverlap : List Region → Run Error Unit
  | a :: b :: rs =>
    if a.stop > b.start then
      fail (.overlappingRegions a.label a.start a.stop b.label b.start b.stop)
    else checkOverlap (b :: rs)
  | _ => return ()

/-- The structured regions of the image, sorted by their start. -/
def buildRegions (cls : ElfClass) (ehdr : Ehdr64) (shdrs : List Shdr64) :
    Run Error (List Region) := do
  let ph ← tableRegion "program-header table" ehdr.e_phoff ehdr.e_phnum (phdrSize cls)
  let sh ← tableRegion "section-header table" ehdr.e_shoff ehdr.e_shnum (shdrSize cls)
  let secs ← sectionRegions 0 shdrs
  let regions := Region.sortByStart (⟨"ELF header", 0, ehdrSize cls⟩ :: (ph ++ sh ++ secs))
  checkOverlap regions
  return regions

/-! ## Reading -/

/-- The check of a header table's place in the file, and the number of its bytes. -/
def ensureTable (label : String) (bytes : Bytes) (offset count entrySize : ℕ) : Run Error Unit :=
  match checkedMul count entrySize with
  | none => fail (.regionOverflow label offset (count * entrySize))
  | some total => ensureLen bytes offset total

/-- The bytes of the entries of a table. -/
def tableEntries (bytes : Bytes) (offset count entrySize : ℕ) : List Bytes :=
  (List.range count).map fun i => window bytes (offset + i * entrySize) entrySize

/-- Read the program headers. -/
def parsePhdrs (cls : ElfClass) (bytes : Bytes) (ehdr : Ehdr64) : Run Error (List Phdr64) :=
  if ehdr.e_phnum = 0 then return []
  else do
    ensureTable "program-header table" bytes ehdr.e_phoff ehdr.e_phnum (phdrSize cls)
    return (tableEntries bytes ehdr.e_phoff ehdr.e_phnum (phdrSize cls)).map (Phdr64.parse cls)

/-- The content of a section in the file. -/
def sectionContent (bytes : Bytes) (sh : Shdr64) : Run Error Bytes :=
  if sh.occupiesFile then do
    ensureLen bytes sh.sh_offset sh.sh_size
    return window bytes sh.sh_offset sh.sh_size
  else return []

/-- The contents of the sections, up to the first that does not lie in the file. -/
def sectionContents (bytes : Bytes) : List Shdr64 → Run Error (List Bytes)
  | [] => return []
  | sh :: shs => do
    let data ← sectionContent bytes sh
    let rest ← sectionContents bytes shs
    return data :: rest

/-- Read the section headers and the contents of their sections. -/
def parseShdrsAndSections (cls : ElfClass) (bytes : Bytes) (ehdr : Ehdr64) :
    Run Error (List Shdr64 × List Bytes) :=
  if ehdr.e_shnum = 0 then return ([], [])
  else do
    ensureTable "section-header table" bytes ehdr.e_shoff ehdr.e_shnum (shdrSize cls)
    let shdrs := (tableEntries bytes ehdr.e_shoff ehdr.e_shnum (shdrSize cls)).map
      (Shdr64.parse cls)
    let section_data ← sectionContents bytes shdrs
    return (shdrs, section_data)

namespace Elf64File

/-- Parse an image. -/
def parse (bytes : Bytes) : Run Error Elf64File := do
  let (ehdr, cls) ← Ehdr64.parse bytes
  let phdrs ← parsePhdrs cls bytes ehdr
  let (shdrs, section_data) ← parseShdrsAndSections cls bytes ehdr
  let regions ← buildRegions cls ehdr shdrs
  let padding ← orPanic (computePadding bytes regions)
  return ⟨cls, ehdr, phdrs, shdrs, section_data, padding, bytes.length⟩

/-! ## Writing -/

/-- Write the entries of a header table, each over its part of the buffer. -/
def writeTable (offset entrySize : ℕ) (entries : List (Bytes → Option Bytes)) (out : Bytes) :
    Option Bytes :=
  entries.zipIdx.foldlM (fun out e =>
    modifySlice out (offset + e.2 * entrySize) (offset + e.2 * entrySize + entrySize) e.1) out

/-- Copy the content of one section. -/
def writeSection (out : Bytes) (s : Shdr64 × Bytes) : Option Bytes :=
  if s.1.occupiesFile then copyInto out s.1.sh_offset s.2 else some out

/-- Serialize the file. -/
def writeToVec (f : Elf64File) : Option Bytes := do
  let out := List.replicate f.file_size 0
  let out ← modifySlice out 0 (ehdrSize f.cls) (f.ehdr.write f.cls)
  let out ← writeTable f.ehdr.e_phoff (phdrSize f.cls) (f.phdrs.map fun p => p.write f.cls) out
  let out ← writeTable f.ehdr.e_shoff (shdrSize f.cls) (f.shdrs.map fun s => s.write f.cls) out
  let out ← (f.shdrs.zip f.section_data).foldlM writeSection out
  writeAll out f.padding

end Elf64File

/-! ## The parts of an image -/

/-- The parts into which the reader cuts an image. -/
inductive Piece where
  | header
  | phdrTable
  | shdrTable
  /-- The content of the section with this number. -/
  | content (i : ℕ)
  /-- The padding chunk with this number. -/
  | pad (i : ℕ)
  deriving DecidableEq, Repr

namespace Elf64File

/-- Whether the section with number `i` occupies the file. -/
def occupied (f : Elf64File) (i : ℕ) : Bool := (f.shdrs[i]?).any Shdr64.occupiesFile

/-- The parts of the file that hold bytes. -/
def pieces (f : Elf64File) : List Piece :=
  .header :: ((if 0 < f.ehdr.e_phnum then [.phdrTable] else []) ++
    (if 0 < f.ehdr.e_shnum then [.shdrTable] else []) ++
    ((List.range f.shdrs.length).filter f.occupied).map .content) ++
    (List.range f.padding.length).map .pad

/-- Where a part stands in the file. -/
def extentOf (f : Elf64File) : Piece → Extent
  | .header => ⟨0, ehdrSize f.cls⟩
  | .phdrTable => ⟨f.ehdr.e_phoff, f.ehdr.e_phnum * phdrSize f.cls⟩
  | .shdrTable => ⟨f.ehdr.e_shoff, f.ehdr.e_shnum * shdrSize f.cls⟩
  | .content i => ⟨(f.shdrs[i]?).elim 0 Shdr64.sh_offset, (f.section_data[i]?).elim 0 List.length⟩
  | .pad i => ⟨(f.padding[i]?).elim 0 Prod.fst, (f.padding[i]?).elim 0 fun p => p.2.length⟩

end Elf64File

end Univdreams.Elf
