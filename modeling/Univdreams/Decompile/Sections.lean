import Univdreams.Analysis.FunctionMap
import Univdreams.Arch.Bpf
import Univdreams.Decompile.Data
import Univdreams.Elf.RoundTrip

/-!
# Cutting an ELF section into items

`build_section_items` and `drop_redundant_function_addrs` of `src/translate/decompile/mod.rs`. A
section with a structured form becomes one item. Any other section is cut at the functions that lie
in it: a cursor moves from function to function, and the bytes that it jumps over become gaps. The
addresses that a second cursor predicts are then dropped; it estimates the sizes of the lifted
bodies with `stmt_total_bytes_at` of `src/translate/decompile/build_function.rs`.

The lifting of code to statements is a parameter here, which stands for the decoder and the function
builder of the architecture with everything that they look up in the file.
-/

namespace Univdreams.Decompile

open Elf Ast Arch Lower Analysis List

/-! ## The architecture of a file -/

/-- The backend for a file. The last one has no decoder. -/
inductive Backend where
  | x86 (bitness : X86.Bitness)
  | aarch64
  | bpf (variant : Bpf.BpfVariant)
  | opaqueArch
  deriving DecidableEq, Repr

/-- The backend that `decompile` chooses by the class and the machine of a file. -/
def backendOf (elf : Elf64File) : Backend :=
  match elf.cls, elf.ehdr.e_machine with
  | .elf64, 62 => .x86 .bits64
  | .elf32, 3 => .x86 .bits32
  | .elf64, 183 => .aarch64
  | .elf64, 247 => .bpf .linux
  | .elf64, 263 => .bpf .sbfv1
  | _, _ => .opaqueArch

/-- Whether the gaps between functions are lifted. -/
def Backend.isBpf : Backend → Bool
  | .bpf _ => true
  | _ => false

/-! ## Sections -/

/-- `Elf64File::section_name`. -/
def sectionName (elf : Elf64File) (idx : ℕ) : Option Text := do
  let shstrtab ← elf.section_data[elf.ehdr.e_shstrndx]?
  let sh ← elf.shdrs[idx]?
  let name ← readStrtabCstring shstrtab sh.sh_name
  Text.fromUtf8 name

/-- `section_is_emittable`: neither a null section nor one without file content. -/
def sectionIsEmittable (sh : Shdr64) : Bool :=
  sh.sh_type ≠ 0 && sh.sh_type ≠ shtNobits && 0 < sh.sh_size

/-- The structured form of a section, when it has one. -/
def structuredItem (elf : Elf64File) (idx : ℕ) (sh : Shdr64) (data : Bytes) : Option Item :=
  let strings := if sh.sh_type = 3 ∨ (sectionName elf idx).getD [] = ".interp".toList then
    decodeStrtab data else none
  let notes := if sh.sh_type = 7 then decodeNotes data else none
  (strings.map (.strings (.ofNat sh.sh_addr))).or (notes.map (.notes (.ofNat sh.sh_addr)))

/-- The functions of the map that lie in the section. Both ends are cut off at the last address. -/
def sectionFunctions (map : FunctionMap) (sh : Shdr64) : List Function :=
  if isExec sh then map.functions.filter fun f => 0 < f.size ∧ sh.sh_addr ≤ f.addr.toNat ∧
    saturatingAdd f.addr.toNat f.size.toNat ≤ saturatingAdd sh.sh_addr sh.sh_size
  else []

/-! ## Cutting -/

/-- What the lifting of a function gives beyond its name and address. -/
structure Lifted where
  attrs : List Attribute
  signature : Option Signature
  locals : List LocalDecl
  body : List Stmt

/-- The declaration of a lifted function. -/
def Lifted.declare (l : Lifted) (name : Text) (addr : UInt64) : FnDecl :=
  ⟨some addr, name, l.attrs, l.signature, l.locals, l.body⟩

/-- The lifting of the bytes of a function, by name and address. -/
abbrev Lifter (ε : Type) := Text → UInt64 → Bytes → Except ε Lifted

section Cutting

variable {ε : Type} (checks : Bool) (lift : Lifter ε) (backend : Backend)

/-- The item of a function. -/
def liftItem (name : Text) (addr : UInt64) (bytes : Bytes) : Run ε Item :=
  match lift name addr bytes with
  | .ok l => .ok (.function (l.declare name addr))
  | .error e => fail e

/-- The instructions of a gap in code of BPF, lifted under a name made from their address. -/
def emitFragment (codeAddr : ℕ) (code : Bytes) : Run ε (List Item) :=
  if code = [] then return []
  else do
    let item ← liftItem lift ("fragment_".toList ++ Text.toHex codeAddr) (.ofNat codeAddr) code
    return [item]

/-- `emit_gap`. In BPF, the part before the first whole instruction stays raw. -/
def emitGap (exec : Bool) (addr : ℕ) (bytes : Bytes) : Run ε (List Item) :=
  if bytes = [] then return []
  else if exec && backend.isBpf then do
    let headLen := bytes.length % 8
    let codeAddr ← orPanic (addWord checks addr headLen)
    let fragment ← emitFragment lift codeAddr (bytes.drop headLen)
    return (if headLen = 0 then [] else [.raw (.ofNat addr) (bytes.take headLen)]) ++ fragment
  else return [.raw (.ofNat addr) bytes]

/-- The gap, if any, from the cursor of a section at `start` to `stop`, with the bytes up to
position `hi`. -/
def gapUpTo (exec : Bool) (start : ℕ) (data : Bytes) (cursor stop hi : ℕ) : Run ε (List Item) :=
  if cursor < stop then do
    let bytes ← orPanic (slice data (cursor - start) hi)
    emitGap checks lift backend exec cursor bytes
  else return []

/-- The loop over the functions of a section at `start`: its items, and the cursor behind. A backend
without a decoder skips the function and leaves the cursor. -/
def cutFunctions (exec : Bool) (start : ℕ) (data : Bytes) :
    ℕ → List Function → Run ε (List Item × ℕ)
  | cursor, [] => return ([], cursor)
  | cursor, f :: fs => do
    let lo := f.addr.toNat - start
    let gap ← gapUpTo checks lift backend exec start data cursor f.addr.toNat lo
    let hi ← orPanic (addWord checks lo f.size.toNat)
    let bytes ← orPanic (slice data lo hi)
    if backend = .opaqueArch then
      let (items, last) ← cutFunctions exec start data cursor fs
      return (gap ++ items, last)
    else
      let item ← liftItem lift f.name f.addr bytes
      let (items, last) ← cutFunctions exec start data
        (saturatingAdd f.addr.toNat f.size.toNat) fs
      return (gap ++ item :: items, last)

/-- The items of a section without a structured form. -/
def cutSection (exec : Bool) (start stop : ℕ) (data : Bytes) (funcs : List Function) :
    Run ε (List Item) := do
  let (items, cursor) ← cutFunctions checks lift backend exec start data start funcs
  let tail ← gapUpTo checks lift backend exec start data cursor stop data.length
  return items ++ tail

end Cutting

/-- `build_section_items`, for the section with number `idx`. -/
def buildSectionItems {ε : Type} (checks : Bool) (lift : Lifter ε) (elf : Elf64File)
    (idx : ℕ) (sh : Shdr64) (data : Bytes) (map : FunctionMap) : Run ε (List Item) :=
  match structuredItem elf idx sh data with
  | some item => return [item]
  | none => cutSection checks lift (backendOf elf) (isExec sh) sh.sh_addr
      (saturatingAdd sh.sh_addr sh.sh_size) data (sectionFunctions map sh)

/-! ## Estimated sizes -/

/-- `switch_encoded_size`. -/
def switchEncodedSize (cases : List UInt64) (dispatch : Text) : ℕ :=
  if dispatch ≠ "msvc-jmp-table".toList then 0
  else (if cases.length - 1 ≤ 0x7f then 3 else 6) + 6 + 7

/-- The estimated size of `if … goto` and of `if … return`. -/
def condGotoSize (cursor : ℕ) (cmp_bytes : Bytes) (target_addr : UInt64) (wide : Bool) : ℕ :=
  cmp_bytes.length +
    X86.branchSize 6 (saturatingAdd cursor cmp_bytes.length) target_addr.toNat wide

section Sizes

variable (checks : Bool)

mutual

/-- `stmt_total_bytes_at`. The addresses inside a statement are plain sums. -/
def stmtTotalBytesAt (cursor : ℕ) : Stmt → Option ℕ
  | .asm _ bytes => some bytes.length
  | .return _ bytes => some bytes.length
  | .prologue _ _ bytes => some bytes.length
  | .epilogue _ _ bytes => some bytes.length
  | .save _ bytes => some bytes.length
  | .restore _ bytes => some bytes.length
  | .returnExpr _ bytes => some bytes.length
  | .argSpill _ bytes => some bytes.length
  | .localSet _ _ bytes => some bytes.length
  | .localArith _ _ _ bytes => some bytes.length
  | .localCompound _ _ _ bytes => some bytes.length
  | .move _ _ bytes => some bytes.length
  | .inc16 _ _ bytes => some bytes.length
  | .sehInstall bytes => some bytes.length
  | .sehRestore bytes => some bytes.length
  | .regArith _ _ _ bytes => some bytes.length
  | .call _ _ bytes direct_target =>
    some (bytes.length + if direct_target.isSome then 5 else 0)
  | .goto target_addr wide => some (X86.branchSize 5 cursor target_addr.toNat wide)
  | .ifGoto _ target_addr cmp_bytes _ wide => some (condGotoSize cursor cmp_bytes target_addr wide)
  | .ifReturn _ _ target_addr cmp_bytes _ wide =>
    some (condGotoSize cursor cmp_bytes target_addr wide)
  | .ifBranch _ cond_bytes attrs pre_body then_body else_body => do
    let head := (headBytesAttr attrs).getD []
    let sub ← addWord checks cursor head.length
    let preN ← stmtsTotalBytesAt sub pre_body
    let sub ← addWord checks sub preN
    let sub ← addWord checks sub cond_bytes.length
    let thenN ← stmtsTotalBytesAt sub then_body
    let sub ← addWord checks sub thenN
    let elseN ← match else_body with
      | none => some 0
      | some else_body => stmtsTotalBytesAt sub else_body
    return head.length + preN + cond_bytes.length + thenN + elseN
  | .loop _ entry_jmp_bytes tail_bytes body => do
    let entry := entry_jmp_bytes.getD []
    let sub ← addWord checks cursor entry.length
    let bodyN ← stmtsTotalBytesAt sub body
    return entry.length + bodyN + tail_bytes.length
  | .ifBlock _ cond_bytes then_body then_tail_jmp else_body => do
    let sub ← addWord checks cursor cond_bytes.length
    let thenN ← stmtsTotalBytesAt sub then_body
    let sub ← addWord checks sub thenN
    let sub ← addWord checks sub then_tail_jmp.length
    let elseN ← stmtsTotalBytesAt sub else_body
    return cond_bytes.length + thenN + then_tail_jmp.length + elseN
  | .whileBlock _ entry_bytes tail_bytes body => do
    let sub ← addWord checks cursor entry_bytes.length
    let bodyN ← stmtsTotalBytesAt sub body
    return entry_bytes.length + bodyN + tail_bytes.length
  | .label _ => some 0
  | .comment _ => some 0
  | .switch _ cases _ dispatch _ => some (switchEncodedSize cases dispatch)

/-- `stmts_total_bytes_at`, which is `lowered_body_size_at`. -/
def stmtsTotalBytesAt (cursor : ℕ) : List Stmt → Option ℕ
  | [] => some 0
  | s :: ss => do
    let n ← stmtTotalBytesAt cursor s
    let next ← addWord checks cursor n
    let rest ← stmtsTotalBytesAt next ss
    return n + rest

end

/-- `strings_byte_size`. The strings are in memory, so that the sum does not overflow. -/
def stringsByteSize (strings : List Text) : ℕ :=
  (strings.map fun s => (Text.utf8 s).length + 1).sum

/-- `notes_byte_size`, which does not overflow either. -/
def notesByteSize (entries : List NoteEntry) : ℕ :=
  (entries.map fun e => 12 + ((Text.utf8 e.name).length + 1 + 3) / 4 * 4 +
    (e.desc.length + 3) / 4 * 4).sum

/-- The cursor behind an item. A function is taken to stand at the cursor. -/
def cursorBehind (cursor : ℕ) : Item → Option ℕ
  | .function f => do
    let size ← stmtsTotalBytesAt checks cursor f.body
    return saturatingAdd cursor size
  | .raw addr bytes => some (saturatingAdd addr.toNat bytes.length)
  | .strings addr strings => some (saturatingAdd addr.toNat (stringsByteSize strings))
  | .notes addr entries => some (saturatingAdd addr.toNat (notesByteSize entries))
  | .jumpTable addr _ entries => some (saturatingAdd addr.toNat (entries.length * 4))
  | .comment _ => some cursor
  | .section .. => some cursor

/-- The item, without the address of its function when that is the cursor. -/
def dropAddr (cursor : ℕ) : Item → Item
  | .function f =>
    if f.addr.map UInt64.toNat = some cursor then .function { f with addr := none } else .function f
  | item => item

/-- `drop_redundant_function_addrs`. -/
def dropRedundantFunctionAddrs (cursor : ℕ) : List Item → Option (List Item)
  | [] => some []
  | item :: items => do
    let next ← cursorBehind checks cursor item
    let rest ← dropRedundantFunctionAddrs next items
    return dropAddr cursor item :: rest

end Sizes

/-! ## Estimates without overflow checks -/

/-- A step that always gives something, behind something. -/
theorem isSome_step {α β : Type} {x : Option α} {f : α → Option β} (hx : x.isSome)
    (hf : ∀ a, (f a).isSome) : (x >>= f).isSome := by
  obtain ⟨a, rfl⟩ := Option.isSome_iff_exists.1 hx
  exact hf a

/-- A sum wraps in a build without overflow checks. -/
theorem isSome_addWord_unchecked (a b : ℕ) : (addWord false a b).isSome := isSome_addWord.2 nofun

mutual

/-- Without overflow checks the size of a statement is estimated in any case. -/
theorem isSome_stmtTotalBytesAt (cursor : ℕ) (s : Stmt) :
    (stmtTotalBytesAt false cursor s).isSome := by
  cases s with
  | ifBranch _ cond_bytes attrs pre_body then_body else_body =>
    cases else_body with
    | none =>
      simp only [stmtTotalBytesAt]
      refine isSome_step (isSome_addWord_unchecked _ _) fun sub => ?_
      refine isSome_step (isSome_stmtsTotalBytesAt sub pre_body) fun preN => ?_
      refine isSome_step (isSome_addWord_unchecked _ _) fun sub => ?_
      refine isSome_step (isSome_addWord_unchecked _ _) fun sub => ?_
      refine isSome_step (isSome_stmtsTotalBytesAt sub then_body) fun thenN => ?_
      exact isSome_step (isSome_addWord_unchecked _ _) fun sub => rfl
    | some else_body =>
      simp only [stmtTotalBytesAt]
      refine isSome_step (isSome_addWord_unchecked _ _) fun sub => ?_
      refine isSome_step (isSome_stmtsTotalBytesAt sub pre_body) fun preN => ?_
      refine isSome_step (isSome_addWord_unchecked _ _) fun sub => ?_
      refine isSome_step (isSome_addWord_unchecked _ _) fun sub => ?_
      refine isSome_step (isSome_stmtsTotalBytesAt sub then_body) fun thenN => ?_
      refine isSome_step (isSome_addWord_unchecked _ _) fun sub => ?_
      exact isSome_step (isSome_stmtsTotalBytesAt sub else_body) fun elseN => rfl
  | loop _ entry_jmp_bytes tail_bytes body =>
    exact isSome_step (isSome_addWord_unchecked _ _) fun sub =>
      isSome_step (isSome_stmtsTotalBytesAt sub body) fun bodyN => rfl
  | ifBlock _ cond_bytes then_body then_tail_jmp else_body =>
    refine isSome_step (isSome_addWord_unchecked _ _) fun sub => ?_
    refine isSome_step (isSome_stmtsTotalBytesAt sub then_body) fun thenN => ?_
    refine isSome_step (isSome_addWord_unchecked _ _) fun sub => ?_
    refine isSome_step (isSome_addWord_unchecked _ _) fun sub => ?_
    exact isSome_step (isSome_stmtsTotalBytesAt sub else_body) fun elseN => rfl
  | whileBlock _ entry_bytes tail_bytes body =>
    exact isSome_step (isSome_addWord_unchecked _ _) fun sub =>
      isSome_step (isSome_stmtsTotalBytesAt sub body) fun bodyN => rfl
  | _ => rfl

/-- Without overflow checks the size of statements is estimated in any case. -/
theorem isSome_stmtsTotalBytesAt (cursor : ℕ) : ∀ ss : List Stmt,
    (stmtsTotalBytesAt false cursor ss).isSome
  | [] => rfl
  | s :: ss => isSome_step (isSome_stmtTotalBytesAt cursor s) fun _ =>
    isSome_step (isSome_addWord_unchecked _ _) fun next =>
      isSome_step (isSome_stmtsTotalBytesAt next ss) fun _ => rfl

end

/-- Without overflow checks the cursor gets through all items. -/
theorem isSome_foldlM_cursorBehind : ∀ (items : List Item) (cursor : ℕ),
    (items.foldlM (cursorBehind false) cursor).isSome
  | [], _ => rfl
  | item :: items, cursor => by
    rw [List.foldlM_cons]
    refine isSome_step ?_ fun next => isSome_foldlM_cursorBehind items next
    cases item with
    | function f => exact isSome_step (isSome_stmtsTotalBytesAt cursor f.body) fun _ => rfl
    | _ => rfl

/-! ## Sizes of data -/

theorem length_lowerStringsBytes (strings : List Text) :
    (lowerStringsBytes strings).length = stringsByteSize strings := by
  rw [lowerStringsBytes, stringsByteSize, List.length_flatMap]
  simp only [List.length_append, List.length_singleton]

theorem length_padTo4 (out : Bytes) : (padTo4 out).length = (out.length + 3) / 4 * 4 := by
  rw [padTo4, List.length_append, List.length_replicate]
  omega

/-- A note behind whole words takes the size that is computed for it alone. -/
theorem length_lowerNote {out : Bytes} (h : out.length % 4 = 0) (e : NoteEntry) :
    (lowerNote out e).length = out.length + notesByteSize [e] := by
  simp only [lowerNote, length_padTo4, length_append, length_toLe, length_singleton,
    notesByteSize, map_cons, map_nil, sum_cons, sum_nil]
  omega

/-- The notes before each note are whole words. -/
theorem length_foldl_lowerNote : ∀ (entries : List NoteEntry) {out : Bytes}, out.length % 4 = 0 →
    (entries.foldl lowerNote out).length = out.length + notesByteSize entries
  | [], _, _ => rfl
  | e :: entries, out, h => by
    have hlen := length_lowerNote h e
    have hwords : (lowerNote out e).length % 4 = 0 := by
      rw [lowerNote, length_padTo4]
      omega
    rw [foldl_cons, length_foldl_lowerNote entries hwords, hlen]
    simp only [notesByteSize, map_cons, map_nil, sum_cons, sum_nil]
    omega

/-- **Structured data sections are lossless.** What is read from a section as a string table or as
notes is lowered to the section, and its size is computed to be the size of the section. -/
theorem data_sections_lossless (data : Bytes) : (∀ strings, decodeStrtab data = some strings →
      lowerStringsBytes strings = data ∧ stringsByteSize strings = data.length) ∧
    ∀ entries, decodeNotes data = some entries →
      lowerNotesBytes entries = data ∧ notesByteSize entries = data.length := by
  constructor
  · intro strings h
    have hlower := lowerStringsBytes_decodeStrtab h
    exact ⟨hlower, by rw [← length_lowerStringsBytes, hlower]⟩
  intro entries h
  have hlower := lowerNotesBytes_decodeNotes h
  refine ⟨hlower, ?_⟩
  have hlen := @length_foldl_lowerNote entries [] rfl
  rw [← hlower, lowerNotesBytes, hlen, List.length_nil, Nat.zero_add]

/-- A string table with an empty first string, and a note with a name of three letters and a
description of one byte. -/
theorem data_sections_lossless_small :
    (decodeStrtab [0, 97, 0] = some [[], ['a']] ∧ lowerStringsBytes [[], ['a']] = [0, 97, 0]) ∧
    ∃ entries, decodeNotes [4, 0, 0, 0, 1, 0, 0, 0, 1, 0, 0, 0, 71, 78, 85, 0, 9, 0, 0, 0] =
      some entries ∧ notesByteSize entries = 20 := by
  have hstr : decodeStrtab [0, 97, 0] = some [[], ['a']] := by decide
  refine ⟨⟨hstr, ((data_sections_lossless _).1 _ hstr).1⟩, ?_⟩
  have hnote : decodeNote [4, 0, 0, 0, 1, 0, 0, 0, 1, 0, 0, 0, 71, 78, 85, 0, 9, 0, 0, 0] 0 =
      some (⟨1, ['G', 'N', 'U'], [9]⟩, 20) := by decide
  have hend : decodeNotesFrom
      [4, 0, 0, 0, 1, 0, 0, 0, 1, 0, 0, 0, 71, 78, 85, 0, 9, 0, 0, 0] 20 = some [] := by
    rw [decodeNotesFrom]
    rfl
  have hnotes : decodeNotes [4, 0, 0, 0, 1, 0, 0, 0, 1, 0, 0, 0, 71, 78, 85, 0, 9, 0, 0, 0] =
      some [⟨1, ['G', 'N', 'U'], [9]⟩] := by
    rw [decodeNotes, decodeNotesFrom, if_neg (by decide)]
    split
    · simp_all
    rename_i e j h
    obtain ⟨rfl, rfl⟩ : _ = e ∧ _ = j := by simpa [hnote] using h
    rw [hend]
    rfl
  exact ⟨_, hnotes, ((data_sections_lossless _).2 _ hnotes).2⟩

end Univdreams.Decompile
