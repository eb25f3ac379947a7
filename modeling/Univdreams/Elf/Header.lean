import Univdreams.Bytes
import Univdreams.Words

/-!
# ELF headers

The ELF header, the program headers and the section headers of `src/format/elf.rs`, for both
classes. A header is kept in its 64-bit shape whatever the class of the file: a 32-bit field is
zero-extended when it is read and truncated when it is written. `Ehdr64.write_parse`,
`Phdr64.write_parse` and `Shdr64.write_parse` show that a header that was read is written back as
the bytes it was read from, whichever class it has.
-/

namespace Univdreams.Elf

/-- Size of `e_ident` in any ELF. -/
def eiNident : ℕ := 16

/-- ELF magic bytes (`\x7fELF`) at the start of `e_ident`. -/
def elfMagic : Bytes := [0x7f, 0x45, 0x4c, 0x46]

/-- `e_ident[EI_CLASS]` of 32-bit and of 64-bit objects. -/
def elfClass32 : UInt8 := 1
@[inherit_doc elfClass32] def elfClass64 : UInt8 := 2

/-- `e_ident[EI_DATA]` of little-endian objects. -/
def elfData2Lsb : UInt8 := 1

/-- `sh_type` of a section that occupies no file space. -/
def shtNobits : ℕ := 8

/-- Whether the on-disk image has 32-bit or 64-bit headers. -/
inductive ElfClass where
  | elf32
  | elf64
  deriving DecidableEq, Repr

/-- The on-disk size of the ELF header. -/
def ehdrSize : ElfClass → ℕ
  | .elf32 => 52
  | .elf64 => 64

/-- The on-disk size of a program header. -/
def phdrSize : ElfClass → ℕ
  | .elf32 => 32
  | .elf64 => 56

/-- The on-disk size of a section header. -/
def shdrSize : ElfClass → ℕ
  | .elf32 => 40
  | .elf64 => 64

/-- The errors of the ELF reader. -/
inductive Error where
  | truncated (offset needed available : ℕ)
  | badMagic (magic : Bytes)
  | unsupportedClass (byte : UInt8)
  | unsupportedEncoding (byte : UInt8)
  | badEhsize (got expected : ℕ)
  | badPhentsize (got expected : ℕ)
  | badShentsize (got expected : ℕ)
  | overlappingRegions (aLabel : String) (aStart aEnd : ℕ) (bLabel : String) (bStart bEnd : ℕ)
  | regionOverflow (label : String) (offset size : ℕ)
  deriving DecidableEq, Repr

/-- The reader's length check: `needed` bytes at `offset` lie inside the file. -/
def ensureLen (bytes : Bytes) (offset needed : ℕ) : Run Error Unit :=
  match checkedAdd offset needed with
  | none => fail (.truncated offset needed bytes.length)
  | some stop =>
    if stop > bytes.length then fail (.truncated offset needed bytes.length) else .ok ()

theorem ensureLen_eq_ok {bytes : Bytes} {offset needed : ℕ}
    (h : ensureLen bytes offset needed = .ok ()) :
    offset + needed < wordSize ∧ offset + needed ≤ bytes.length := by
  unfold ensureLen at h
  cases hc : checkedAdd offset needed with
  | none => simp [hc, fail] at h
  | some stop =>
    obtain ⟨hlt, rfl⟩ := checkedAdd_eq_some.1 hc
    simp only [hc] at h
    split_ifs at h with hlen
    · simp [fail] at h
    · exact ⟨hlt, by omega⟩

/-! ## The ELF header -/

/-- The ELF header, under the names of the ELF specification. -/
structure Ehdr64 where
  e_ident : Bytes
  e_type : ℕ
  e_machine : ℕ
  e_version : ℕ
  e_entry : ℕ
  e_phoff : ℕ
  e_shoff : ℕ
  e_flags : ℕ
  e_ehsize : ℕ
  e_phentsize : ℕ
  e_phnum : ℕ
  e_shentsize : ℕ
  e_shnum : ℕ
  e_shstrndx : ℕ
  deriving DecidableEq, Repr

namespace Ehdr64

variable (cls : ElfClass) (bytes : Bytes)

/-- The fields of a 64-bit header. -/
def read64 : Ehdr64 where
  e_ident := window bytes 0 eiNident
  e_type := readLe 2 bytes 16
  e_machine := readLe 2 bytes 18
  e_version := readLe 4 bytes 20
  e_entry := readLe 8 bytes 24
  e_phoff := readLe 8 bytes 32
  e_shoff := readLe 8 bytes 40
  e_flags := readLe 4 bytes 48
  e_ehsize := readLe 2 bytes 52
  e_phentsize := readLe 2 bytes 54
  e_phnum := readLe 2 bytes 56
  e_shentsize := readLe 2 bytes 58
  e_shnum := readLe 2 bytes 60
  e_shstrndx := readLe 2 bytes 62

/-- The fields of a 32-bit header. -/
def read32 : Ehdr64 where
  e_ident := window bytes 0 eiNident
  e_type := readLe 2 bytes 16
  e_machine := readLe 2 bytes 18
  e_version := readLe 4 bytes 20
  e_entry := readLe 4 bytes 24
  e_phoff := readLe 4 bytes 28
  e_shoff := readLe 4 bytes 32
  e_flags := readLe 4 bytes 36
  e_ehsize := readLe 2 bytes 40
  e_phentsize := readLe 2 bytes 42
  e_phnum := readLe 2 bytes 44
  e_shentsize := readLe 2 bytes 46
  e_shnum := readLe 2 bytes 48
  e_shstrndx := readLe 2 bytes 50

/-- The checks of the entry sizes, at the end of both classes, made only if the table has an
entry. -/
def checkSizes (h : Ehdr64) : Run Error Ehdr64 :=
  if h.e_ehsize ≠ ehdrSize cls then fail (.badEhsize h.e_ehsize (ehdrSize cls))
  else if 0 < h.e_phnum ∧ h.e_phentsize ≠ phdrSize cls then
    fail (.badPhentsize h.e_phentsize (phdrSize cls))
  else if 0 < h.e_shnum ∧ h.e_shentsize ≠ shdrSize cls then
    fail (.badShentsize h.e_shentsize (shdrSize cls))
  else .ok h

/-- `Ehdr64::parse_64`. -/
def parse64 : Run Error Ehdr64 := do
  ensureLen bytes 0 (ehdrSize .elf64)
  checkSizes .elf64 (read64 bytes)

/-- `Ehdr64::parse_32`. -/
def parse32 : Run Error Ehdr64 := do
  ensureLen bytes 0 (ehdrSize .elf32)
  checkSizes .elf32 (read32 bytes)

/-- Read the ELF header and the class of the file. -/
def parse : Run Error (Ehdr64 × ElfClass) :=
  if bytes.length < eiNident then fail (.truncated 0 eiNident bytes.length)
  else
    let e_ident := window bytes 0 eiNident
    if window e_ident 0 4 ≠ elfMagic then fail (.badMagic (window e_ident 0 4))
    else if e_ident.getD 5 0 ≠ elfData2Lsb then fail (.unsupportedEncoding (e_ident.getD 5 0))
    else if e_ident.getD 4 0 = elfClass32 then do
      let h ← parse32 bytes
      return (h, .elf32)
    else if e_ident.getD 4 0 = elfClass64 then do
      let h ← parse64 bytes
      return (h, .elf64)
    else fail (.unsupportedClass (e_ident.getD 4 0))

/-- `Ehdr64::write_64`. -/
def write64 (h : Ehdr64) (out : Bytes) : Option Bytes :=
  writeAll out [(0, h.e_ident), (16, toLe 2 h.e_type), (18, toLe 2 h.e_machine),
    (20, toLe 4 h.e_version), (24, toLe 8 h.e_entry), (32, toLe 8 h.e_phoff),
    (40, toLe 8 h.e_shoff), (48, toLe 4 h.e_flags), (52, toLe 2 h.e_ehsize),
    (54, toLe 2 h.e_phentsize), (56, toLe 2 h.e_phnum), (58, toLe 2 h.e_shentsize),
    (60, toLe 2 h.e_shnum), (62, toLe 2 h.e_shstrndx)]

/-- `Ehdr64::write_32`. -/
def write32 (h : Ehdr64) (out : Bytes) : Option Bytes :=
  writeAll out [(0, h.e_ident), (16, toLe 2 h.e_type), (18, toLe 2 h.e_machine),
    (20, toLe 4 h.e_version), (24, toLe 4 h.e_entry), (28, toLe 4 h.e_phoff),
    (32, toLe 4 h.e_shoff), (36, toLe 4 h.e_flags), (40, toLe 2 h.e_ehsize),
    (42, toLe 2 h.e_phentsize), (44, toLe 2 h.e_phnum), (46, toLe 2 h.e_shentsize),
    (48, toLe 2 h.e_shnum), (50, toLe 2 h.e_shstrndx)]

/-- Write the header over a buffer of its size. -/
def write (h : Ehdr64) : ElfClass → Bytes → Option Bytes
  | .elf64, out => h.write64 out
  | .elf32, out => h.write32 out

/-- The fields of a header of either class. -/
def readAs : ElfClass → Bytes → Ehdr64
  | .elf64, bytes => read64 bytes
  | .elf32, bytes => read32 bytes

/-- An accepted header: the file is as long as the header, and its fields are the file's. -/
theorem parse_eq_ok {bytes : Bytes} {h : Ehdr64} {cls : ElfClass}
    (hp : parse bytes = .ok (h, cls)) :
    ehdrSize cls ≤ bytes.length ∧ h = readAs cls bytes := by
  have hcheck : ∀ {cls h h'}, checkSizes cls h = .ok h' → h' = h := by
    intro cls h h' hc
    unfold checkSizes at hc
    split_ifs at hc <;> simp_all [fail]
  unfold parse at hp
  simp only [fail] at hp
  split_ifs at hp
  · obtain ⟨h1, hread, heq⟩ := Run.bind_eq_ok.1 hp
    obtain ⟨u, hlen, hsizes⟩ := Run.bind_eq_ok.1 hread
    obtain ⟨rfl, rfl⟩ : h1 = h ∧ ElfClass.elf32 = cls := by simpa using heq
    exact ⟨by simpa using (ensureLen_eq_ok hlen).2, hcheck hsizes⟩
  obtain ⟨h1, hread, heq⟩ := Run.bind_eq_ok.1 hp
  obtain ⟨u, hlen, hsizes⟩ := Run.bind_eq_ok.1 hread
  obtain ⟨rfl, rfl⟩ : h1 = h ∧ ElfClass.elf64 = cls := by simpa using heq
  exact ⟨by simpa using (ensureLen_eq_ok hlen).2, hcheck hsizes⟩

/-- A header that was read from a file is written back as the file's first bytes. -/
theorem write_readAs {cls : ElfClass} {bytes part : Bytes} (hb : ehdrSize cls ≤ bytes.length)
    (hlen : part.length = ehdrSize cls) :
    (readAs cls bytes).write cls part = some (window bytes 0 (ehdrSize cls)) := by
  cases cls with
  | elf64 =>
    simp only [ehdrSize] at hb hlen ⊢
    simp only [readAs, write, write64, read64, eiNident]
    simp (disch := omega) only [toLe_readLe]
    exact writeAll_windows [(0, 16), (16, 2), (18, 2), (20, 4), (24, 8),
      (32, 8), (40, 8), (48, 4), (52, 2), (54, 2), (56, 2), (58, 2), (60, 2), (62, 2)]
      (by decide) (by omega) hlen
  | elf32 =>
    simp only [ehdrSize] at hb hlen ⊢
    simp only [readAs, write, write32, read32, eiNident]
    simp (disch := omega) only [toLe_readLe]
    exact writeAll_windows [(0, 16), (16, 2), (18, 2), (20, 4), (24, 4),
      (28, 4), (32, 4), (36, 4), (40, 2), (42, 2), (44, 2), (46, 2), (48, 2), (50, 2)]
      (by decide) (by omega) hlen

/-- The offset of the section-header table is a word. -/
theorem readAs_lt : (readAs cls bytes).e_shoff < wordSize := by
  cases cls with
  | elf64 => exact readLe_lt 8 bytes 40
  | elf32 => exact (readLe_lt 4 bytes 32).trans (by decide)

end Ehdr64

/-! ## Program headers -/

/-- A program header. -/
structure Phdr64 where
  p_type : ℕ
  p_flags : ℕ
  p_offset : ℕ
  p_vaddr : ℕ
  p_paddr : ℕ
  p_filesz : ℕ
  p_memsz : ℕ
  p_align : ℕ
  deriving DecidableEq, Repr

namespace Phdr64

/-- `Phdr64::parse_64`. -/
def parse64 (bytes : Bytes) : Phdr64 where
  p_type := readLe 4 bytes 0
  p_flags := readLe 4 bytes 4
  p_offset := readLe 8 bytes 8
  p_vaddr := readLe 8 bytes 16
  p_paddr := readLe 8 bytes 24
  p_filesz := readLe 8 bytes 32
  p_memsz := readLe 8 bytes 40
  p_align := readLe 8 bytes 48

/-- `Phdr64::parse_32`. The flags stand behind the sizes in this class. -/
def parse32 (bytes : Bytes) : Phdr64 where
  p_type := readLe 4 bytes 0
  p_offset := readLe 4 bytes 4
  p_vaddr := readLe 4 bytes 8
  p_paddr := readLe 4 bytes 12
  p_filesz := readLe 4 bytes 16
  p_memsz := readLe 4 bytes 20
  p_flags := readLe 4 bytes 24
  p_align := readLe 4 bytes 28

/-- Read a program header from the bytes of its entry. -/
def parse : ElfClass → Bytes → Phdr64
  | .elf64, bytes => parse64 bytes
  | .elf32, bytes => parse32 bytes

/-- `Phdr64::write_64`. -/
def write64 (p : Phdr64) (out : Bytes) : Option Bytes :=
  writeAll out [(0, toLe 4 p.p_type), (4, toLe 4 p.p_flags), (8, toLe 8 p.p_offset),
    (16, toLe 8 p.p_vaddr), (24, toLe 8 p.p_paddr), (32, toLe 8 p.p_filesz),
    (40, toLe 8 p.p_memsz), (48, toLe 8 p.p_align)]

/-- `Phdr64::write_32`. -/
def write32 (p : Phdr64) (out : Bytes) : Option Bytes :=
  writeAll out [(0, toLe 4 p.p_type), (4, toLe 4 p.p_offset), (8, toLe 4 p.p_vaddr),
    (12, toLe 4 p.p_paddr), (16, toLe 4 p.p_filesz), (20, toLe 4 p.p_memsz),
    (24, toLe 4 p.p_flags), (28, toLe 4 p.p_align)]

/-- Write the program header over a buffer of its size. -/
def write (p : Phdr64) : ElfClass → Bytes → Option Bytes
  | .elf64, out => p.write64 out
  | .elf32, out => p.write32 out

/-- A program header is written back as the entry it was read from. -/
theorem write_parse {cls : ElfClass} {b part : Bytes} {off : ℕ}
    (hb : off + phdrSize cls ≤ b.length) (hlen : part.length = phdrSize cls) :
    (parse cls (window b off (phdrSize cls))).write cls part =
      some (window b off (phdrSize cls)) := by
  have hw := length_window hb
  cases cls with
  | elf64 =>
    simp only [phdrSize] at hb hlen hw ⊢
    simp only [parse, write, write64, parse64]
    simp (disch := omega) only [toLe_readLe, window_window]
    exact writeAll_windows [(0, 4), (4, 4), (8, 8), (16, 8), (24, 8), (32, 8), (40, 8),
      (48, 8)] (by decide) hb hlen
  | elf32 =>
    simp only [phdrSize] at hb hlen hw ⊢
    simp only [parse, write, write32, parse32]
    simp (disch := omega) only [toLe_readLe, window_window]
    exact writeAll_windows [(0, 4), (4, 4), (8, 4), (12, 4), (16, 4), (20, 4), (24, 4),
      (28, 4)] (by decide) hb hlen

/-- The offset and the addresses of a program header are words. -/
theorem parse_lt (cls : ElfClass) (bytes : Bytes) : (parse cls bytes).p_offset < wordSize ∧
    (parse cls bytes).p_vaddr < wordSize ∧ (parse cls bytes).p_paddr < wordSize := by
  cases cls with
  | elf64 => exact ⟨readLe_lt 8 bytes 8, readLe_lt 8 bytes 16, readLe_lt 8 bytes 24⟩
  | elf32 =>
    have hlt : 256 ^ 4 < wordSize := by decide
    exact ⟨(readLe_lt 4 bytes 4).trans hlt, (readLe_lt 4 bytes 8).trans hlt,
      (readLe_lt 4 bytes 12).trans hlt⟩

end Phdr64

/-! ## Section headers -/

/-- A section header. -/
structure Shdr64 where
  sh_name : ℕ
  sh_type : ℕ
  sh_flags : ℕ
  sh_addr : ℕ
  sh_offset : ℕ
  sh_size : ℕ
  sh_link : ℕ
  sh_info : ℕ
  sh_addralign : ℕ
  sh_entsize : ℕ
  deriving DecidableEq, Repr

namespace Shdr64

/-- `Shdr64::parse_64`. -/
def parse64 (bytes : Bytes) : Shdr64 where
  sh_name := readLe 4 bytes 0
  sh_type := readLe 4 bytes 4
  sh_flags := readLe 8 bytes 8
  sh_addr := readLe 8 bytes 16
  sh_offset := readLe 8 bytes 24
  sh_size := readLe 8 bytes 32
  sh_link := readLe 4 bytes 40
  sh_info := readLe 4 bytes 44
  sh_addralign := readLe 8 bytes 48
  sh_entsize := readLe 8 bytes 56

/-- `Shdr64::parse_32`. -/
def parse32 (bytes : Bytes) : Shdr64 where
  sh_name := readLe 4 bytes 0
  sh_type := readLe 4 bytes 4
  sh_flags := readLe 4 bytes 8
  sh_addr := readLe 4 bytes 12
  sh_offset := readLe 4 bytes 16
  sh_size := readLe 4 bytes 20
  sh_link := readLe 4 bytes 24
  sh_info := readLe 4 bytes 28
  sh_addralign := readLe 4 bytes 32
  sh_entsize := readLe 4 bytes 36

/-- Read a section header from the bytes of its entry. -/
def parse : ElfClass → Bytes → Shdr64
  | .elf64, bytes => parse64 bytes
  | .elf32, bytes => parse32 bytes

/-- `Shdr64::write_64`. -/
def write64 (s : Shdr64) (out : Bytes) : Option Bytes :=
  writeAll out [(0, toLe 4 s.sh_name), (4, toLe 4 s.sh_type), (8, toLe 8 s.sh_flags),
    (16, toLe 8 s.sh_addr), (24, toLe 8 s.sh_offset), (32, toLe 8 s.sh_size),
    (40, toLe 4 s.sh_link), (44, toLe 4 s.sh_info), (48, toLe 8 s.sh_addralign),
    (56, toLe 8 s.sh_entsize)]

/-- `Shdr64::write_32`. -/
def write32 (s : Shdr64) (out : Bytes) : Option Bytes :=
  writeAll out [(0, toLe 4 s.sh_name), (4, toLe 4 s.sh_type), (8, toLe 4 s.sh_flags),
    (12, toLe 4 s.sh_addr), (16, toLe 4 s.sh_offset), (20, toLe 4 s.sh_size),
    (24, toLe 4 s.sh_link), (28, toLe 4 s.sh_info), (32, toLe 4 s.sh_addralign),
    (36, toLe 4 s.sh_entsize)]

/-- Write the section header over a buffer of its size. -/
def write (s : Shdr64) : ElfClass → Bytes → Option Bytes
  | .elf64, out => s.write64 out
  | .elf32, out => s.write32 out

/-- Whether the section has bytes in the file. -/
def occupiesFile (s : Shdr64) : Bool := s.sh_type ≠ shtNobits && 0 < s.sh_size

theorem size_pos_of_occupiesFile {s : Shdr64} (h : s.occupiesFile = true) : 0 < s.sh_size := by
  simp only [occupiesFile, Bool.and_eq_true, decide_eq_true_eq] at h
  exact h.2

/-- A section header is written back as the entry it was read from. -/
theorem write_parse {cls : ElfClass} {b part : Bytes} {off : ℕ}
    (hb : off + shdrSize cls ≤ b.length) (hlen : part.length = shdrSize cls) :
    (parse cls (window b off (shdrSize cls))).write cls part =
      some (window b off (shdrSize cls)) := by
  have hw := length_window hb
  cases cls with
  | elf64 =>
    simp only [shdrSize] at hb hlen hw ⊢
    simp only [parse, write, write64, parse64]
    simp (disch := omega) only [toLe_readLe, window_window]
    exact writeAll_windows [(0, 4), (4, 4), (8, 8), (16, 8), (24, 8), (32, 8), (40, 4),
      (44, 4), (48, 8), (56, 8)] (by decide) hb hlen
  | elf32 =>
    simp only [shdrSize] at hb hlen hw ⊢
    simp only [parse, write, write32, parse32]
    simp (disch := omega) only [toLe_readLe, window_window]
    exact writeAll_windows [(0, 4), (4, 4), (8, 4), (12, 4), (16, 4), (20, 4), (24, 4),
      (28, 4), (32, 4), (36, 4)] (by decide) hb hlen

/-- The offset of a section is a word. -/
theorem parse_lt (cls : ElfClass) (bytes : Bytes) : (parse cls bytes).sh_offset < wordSize := by
  cases cls with
  | elf64 => exact readLe_lt 8 bytes 24
  | elf32 => exact (readLe_lt 4 bytes 16).trans (by decide)

/-- The address and the size of a section are words. -/
theorem parse_addr_lt (cls : ElfClass) (bytes : Bytes) : (parse cls bytes).sh_addr < wordSize ∧
    (parse cls bytes).sh_size < wordSize := by
  cases cls with
  | elf64 => exact ⟨readLe_lt 8 bytes 16, readLe_lt 8 bytes 32⟩
  | elf32 =>
    exact ⟨(readLe_lt 4 bytes 12).trans (by decide), (readLe_lt 4 bytes 20).trans (by decide)⟩

end Shdr64

end Univdreams.Elf
