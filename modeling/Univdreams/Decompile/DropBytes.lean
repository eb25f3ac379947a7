import Univdreams.Decompile.Sections

/-!
# Dropping bytes that can be encoded again

`drop_regenerable_asm_bytes` and `drop_regenerable_bytes` of `src/translate/decompile/mod.rs`. Each
pass walks over the statements of a file with a cursor of its own, asks for the encoding of a
statement at the cursor, and clears the pinned bytes when they are this encoding. The first pass
knows the instructions of x86 only; the second takes any codec, and its cursor moves by slots of one
size.

Where the source moves the cursor inside the walk, the cursor behind a statement is a function of
its own here. A result `none` is a panic.
-/

namespace Univdreams.Decompile

open Ast Arch Lower

/-! ## The pass over the instructions of x86 -/

section Asm

variable (p : X86.Platform) (bitness : X86.Bitness)

/-- What is left of the bytes of an instruction at `ip`. The assembler runs even without bytes, so
its panic is one of the pass. -/
def asmLeft (ip : ℕ) (text : Text) (bytes : Bytes) : Option Bytes :=
  match X86.assembleIntel p bitness text ip with
  | .ok encoded => some (if encoded = bytes then [] else bytes)
  | .error (.err _) => some bytes
  | .error .panic => none

/-- `asm_size`: the pinned bytes count, or else those of the assembler. -/
def asmSize (ip : ℕ) (text : Text) (bytes : Bytes) : ℕ :=
  if bytes ≠ [] then bytes.length
  else match X86.assembleIntel p bitness text ip with
    | .ok encoded => encoded.length
    | .error _ => 0

/-- `stmt_min_size`: the bytes of the statements that the pass does not look into. -/
def stmtMinSize : Stmt → ℕ
  | .asm _ bytes => bytes.length
  | .return _ bytes => bytes.length
  | .prologue _ _ bytes => bytes.length
  | .epilogue _ _ bytes => bytes.length
  | .save _ bytes => bytes.length
  | .restore _ bytes => bytes.length
  | .returnExpr _ bytes => bytes.length
  | .argSpill _ bytes => bytes.length
  | .localSet _ _ bytes => bytes.length
  | .localArith _ _ _ bytes => bytes.length
  | .localCompound _ _ _ bytes => bytes.length
  | .move _ _ bytes => bytes.length
  | .inc16 _ _ bytes => bytes.length
  | .sehInstall bytes => bytes.length
  | .sehRestore bytes => bytes.length
  | .call _ _ bytes direct_target => bytes.length + if direct_target.isSome then 5 else 0
  | .goto _ wide => if wide then 5 else 2
  | .ifGoto _ _ cmp_bytes _ wide => cmp_bytes.length + if wide then 6 else 2
  | .ifReturn _ _ _ cmp_bytes _ wide => cmp_bytes.length + if wide then 6 else 2
  | _ => 0

mutual

/-- The cursor of the pass behind a statement. -/
def asmIpBehind (ip : ℕ) : Stmt → ℕ
  | .asm text bytes => saturatingAdd ip (asmSize p bitness ip text bytes)
  | .ifBranch _ cond_bytes _ pre_body then_body else_body =>
    let ip := saturatingAdd (asmIpBehindAll ip pre_body) cond_bytes.length
    let ip := asmIpBehindAll ip then_body
    match else_body with
    | none => ip
    | some else_body => asmIpBehindAll ip else_body
  | .loop _ entry_jmp_bytes tail_bytes body =>
    saturatingAdd (asmIpBehindAll (saturatingAdd ip (entry_jmp_bytes.getD []).length) body)
      tail_bytes.length
  | s => saturatingAdd ip (stmtMinSize s)

/-- The cursor of the pass behind statements. -/
def asmIpBehindAll (ip : ℕ) : List Stmt → ℕ
  | [] => ip
  | s :: ss => asmIpBehindAll (asmIpBehind ip s) ss

end

mutual

/-- `visit_stmts` on one statement. -/
def asmDropStmt (ip : ℕ) : Stmt → Option Stmt
  | .asm text bytes => (asmLeft p bitness ip text bytes).map (.asm text)
  | .ifBranch cond_text cond_bytes attrs pre_body then_body none => do
    let thenIp := saturatingAdd (asmIpBehindAll p bitness ip pre_body) cond_bytes.length
    let pb ← asmDropStmts ip pre_body
    let tb ← asmDropStmts thenIp then_body
    return .ifBranch cond_text cond_bytes attrs pb tb none
  | .ifBranch cond_text cond_bytes attrs pre_body then_body (some else_body) => do
    let thenIp := saturatingAdd (asmIpBehindAll p bitness ip pre_body) cond_bytes.length
    let pb ← asmDropStmts ip pre_body
    let tb ← asmDropStmts thenIp then_body
    let eb ← asmDropStmts (asmIpBehindAll p bitness thenIp then_body) else_body
    return .ifBranch cond_text cond_bytes attrs pb tb (some eb)
  | .loop cond_text entry_jmp_bytes tail_bytes body => do
    let bb ← asmDropStmts (saturatingAdd ip (entry_jmp_bytes.getD []).length) body
    return .loop cond_text entry_jmp_bytes tail_bytes bb
  | s => some s

/-- `visit_stmts`. -/
def asmDropStmts (ip : ℕ) : List Stmt → Option (List Stmt)
  | [] => some []
  | s :: ss => do
    let s' ← asmDropStmt ip s
    let ss' ← asmDropStmts (asmIpBehind p bitness ip s) ss
    return s' :: ss'

end

/-- Whether a function has one of the flags by which the pass expects a prologue. -/
def autogenFlag (f : FnDecl) : Bool := hasFlag f "autogen_pro" || hasFlag f "autogen_pro_legacy"

variable (checks : Bool)

/-- `auto_prologue_size`. -/
def autoPrologueSize (f : FnDecl) : Option ℕ :=
  if autogenFlag f then (autoPrologueBytes checks f).map List.length else some 0

/-- `auto_epilogue_size`, which looks for the flags of a prologue as well. -/
def autoEpilogueSize (f : FnDecl) : Option ℕ :=
  if autogenFlag f then (autoEpilogueBytes checks f).map List.length else some 0

/-- The address at which the pass takes the body of a function to start. -/
def asmStart (cursor : ℕ) (f : FnDecl) : Option ℕ := do
  let head ← autoPrologueSize checks f
  return saturatingAdd ((f.addr.map UInt64.toNat).getD cursor) head

mutual

/-- `visit_items` on one item, with the cursor behind it. -/
def asmDropItem (checks : Bool) (cursor : ℕ) : Item → Option (Item × ℕ)
  | .function f => do
    let ip ← asmStart checks cursor f
    let body ← asmDropStmts p bitness ip f.body
    let tail ← autoEpilogueSize checks { f with body := body }
    return (.function { f with body := body },
      saturatingAdd (asmIpBehindAll p bitness ip f.body) tail)
  | .section name addr items => do
    let items ← asmDropItems checks addr.toNat items
    return (.section name addr items, cursor)
  | .raw addr bytes => some (.raw addr bytes, saturatingAdd addr.toNat bytes.length)
  | .strings addr strings =>
    some (.strings addr strings, saturatingAdd addr.toNat (stringsByteSize strings))
  | .notes addr entries => some (.notes addr entries, addr.toNat)
  | .jumpTable addr dispatch entries =>
    some (.jumpTable addr dispatch entries, saturatingAdd addr.toNat (entries.length * 4))
  | .comment text => some (.comment text, cursor)

/-- `visit_items`. -/
def asmDropItems (checks : Bool) (cursor : ℕ) : List Item → Option (List Item)
  | [] => some []
  | item :: items => do
    let (item, cursor) ← asmDropItem checks cursor item
    let items ← asmDropItems checks cursor items
    return item :: items

end

/-- `drop_regenerable_asm_bytes`. -/
def dropRegenerableAsmBytes (items : List Item) : Option (List Item) :=
  asmDropItems p bitness checks 0 items

end Asm

/-! ## The pass over the encodings of a codec -/

/-- What is left of bytes when the codec has an encoding to compare them with. -/
def clearIf (encoded : Run ArchError Bytes) (bytes : Bytes) : Option Bytes :=
  if bytes = [] then some []
  else match encoded with
    | .ok encoded => some (if encoded = bytes then [] else bytes)
    | .error (.err _) => some bytes
    | .error .panic => none

section Codec

variable (checks : Bool) (arch : ArchCodec)

/-- `slot_size`: the size of a jump to itself. It is not zero for any codec. -/
def slotSize : ℕ := arch.encodedJumpSize 0 0 .default

variable (ip : ℕ)

/-- What is left of the bytes of an instruction at `ip`: its text is tried, then resolved. -/
def leftAsm (text : Text) (bytes : Bytes) : Option Bytes := do
  let bytes ← clearIf (arch.assembleOne text ip) bytes
  let desym := arch.desymbolize text ip
  if desym = text then some bytes else clearIf (arch.assembleOne desym ip) bytes

/-- What is left of the bytes of a call at `ip`. One form of a BPF call is compared. -/
def leftCall (bytes : Bytes) (direct_target : Option UInt64) : Option Bytes :=
  match direct_target with
  | none => some bytes
  | some target =>
    if arch.directCallBytesContainCall ∧ bytes.head? = some 0x85 then
      clearIf (arch.encodeCall ip target.toNat .default) bytes
    else some bytes

/-- The encoding that the conditional jump `bytes` of a block at `ip` is compared with. Its target
is behind `body` and `tailLen` bytes. -/
def skipEncoded (cond_text : Text) (bytes : Bytes) (body : List Stmt) (tailLen : ℕ) :
    Option (Run ArchError Bytes) := do
  let size ← stmtsTotalBytesAt checks (saturatingAdd ip bytes.length) body
  let target := saturatingAdd (saturatingAdd (saturatingAdd ip (slotSize arch)) size) tailLen
  return arch.encodeCondJump cond_text ip target .default

/-- What is left of the conditional jump at the head of a block at `ip`. -/
def leftSkip (cond_text : Text) (bytes : Bytes) (body : List Stmt) (tailLen : ℕ) : Option Bytes :=
  if bytes = [] then some []
  else do
    let encoded ← skipEncoded checks arch ip cond_text bytes body tailLen
    clearIf encoded bytes

/-- The encoding with which the jump at `ip` over the else-branch of an `ifBlock` is compared. -/
def thenTailEncoded (else_body : List Stmt) : Option (Run ArchError Bytes) := do
  let next := saturatingAdd ip (slotSize arch)
  let size ← stmtsTotalBytesAt checks next else_body
  return arch.encodeJump ip (saturatingAdd next size) .default

/-- What is left of the jump at `ip` over the else-branch of an `ifBlock`. -/
def leftThenTail (then_tail_jmp : Bytes) (else_body : List Stmt) : Option Bytes :=
  if then_tail_jmp = [] then some []
  else do
    let encoded ← thenTailEncoded checks arch ip else_body
    clearIf encoded then_tail_jmp

/-- What is left of the jump at `ip` back to the head of a `whileBlock`. -/
def leftBackEdge (ip entryIp : ℕ) (tail_bytes : Bytes) : Option Bytes :=
  clearIf (arch.encodeJump ip entryIp .default) tail_bytes

/-- The bytes by which the cursor moves over a move: whole slots, or one when nothing is pinned. -/
def moveSize (dst src : Text) (bytes : Bytes) : ℕ :=
  if bytes = [] ∨ arch.encodeMove dst src = .ok bytes then slotSize arch
  else max bytes.length (slotSize arch) / slotSize arch * slotSize arch

/-- The cursor behind a jump that moves it only when the jump is pinned. -/
def behindPinned (bytes : Bytes) : ℕ :=
  if bytes = [] then ip else saturatingAdd ip (slotSize arch)

mutual

/-- The cursor of the pass behind a statement. Loops and what the codec does not encode do not move
it. -/
def ipBehind (ip : ℕ) : Stmt → ℕ
  | .asm .. => saturatingAdd ip (slotSize arch)
  | .move dst src bytes => saturatingAdd ip (moveSize arch dst src bytes)
  | .regArith .. => saturatingAdd ip (slotSize arch)
  | .return .. => saturatingAdd ip (slotSize arch)
  | .call .. => saturatingAdd ip (slotSize arch)
  | .ifBlock _ _ then_body then_tail_jmp else_body =>
    let ip := ipBehindAll (saturatingAdd ip (slotSize arch)) then_body
    ipBehindAll (behindPinned arch ip then_tail_jmp) else_body
  | .whileBlock _ _ tail_bytes body =>
    behindPinned arch (ipBehindAll (saturatingAdd ip (slotSize arch)) body) tail_bytes
  | .ifBranch _ cond_bytes _ pre_body then_body else_body =>
    let ip := saturatingAdd (ipBehindAll ip pre_body) cond_bytes.length
    let ip := ipBehindAll ip then_body
    match else_body with
    | none => ip
    | some else_body => ipBehindAll ip else_body
  | _ => ip

/-- The cursor of the pass behind statements. -/
def ipBehindAll (ip : ℕ) : List Stmt → ℕ
  | [] => ip
  | s :: ss => ipBehindAll (ipBehind ip s) ss

end

mutual

/-- `visit_stmts` on one statement. -/
def dropStmt (ip : ℕ) : Stmt → Option Stmt
  | .asm text bytes => (leftAsm arch ip text bytes).map (.asm text)
  | .move dst src bytes => (clearIf (arch.encodeMove dst src) bytes).map (.move dst src)
  | .regArith dst op src bytes =>
    (clearIf (arch.encodeArith dst op src) bytes).map (.regArith dst op src)
  | .return value bytes =>
    (clearIf (arch.encodeReturn (some value.toNat)) bytes).map (.return value)
  | .call name args bytes direct_target =>
    (leftCall arch ip bytes direct_target).map fun bytes => .call name args bytes direct_target
  | .ifBlock cond_text cond_bytes then_body then_tail_jmp else_body => do
    let thenIp := saturatingAdd ip (slotSize arch)
    let tailIp := ipBehindAll arch thenIp then_body
    let cb ← leftSkip checks arch ip cond_text cond_bytes then_body then_tail_jmp.length
    let tb ← dropStmts thenIp then_body
    let ttj ← leftThenTail checks arch tailIp then_tail_jmp else_body
    let eb ← dropStmts (behindPinned arch tailIp then_tail_jmp) else_body
    return .ifBlock cond_text cb tb ttj eb
  | .whileBlock cond_text entry_bytes tail_bytes body => do
    let bodyIp := saturatingAdd ip (slotSize arch)
    let eb ← leftSkip checks arch ip cond_text entry_bytes body tail_bytes.length
    let bb ← dropStmts bodyIp body
    let tb ← leftBackEdge arch (ipBehindAll arch bodyIp body) ip tail_bytes
    return .whileBlock cond_text eb tb bb
  | .ifBranch cond_text cond_bytes attrs pre_body then_body none => do
    let thenIp := saturatingAdd (ipBehindAll arch ip pre_body) cond_bytes.length
    let pb ← dropStmts ip pre_body
    let tb ← dropStmts thenIp then_body
    return .ifBranch cond_text cond_bytes attrs pb tb none
  | .ifBranch cond_text cond_bytes attrs pre_body then_body (some else_body) => do
    let thenIp := saturatingAdd (ipBehindAll arch ip pre_body) cond_bytes.length
    let pb ← dropStmts ip pre_body
    let tb ← dropStmts thenIp then_body
    let eb ← dropStmts (ipBehindAll arch thenIp then_body) else_body
    return .ifBranch cond_text cond_bytes attrs pb tb (some eb)
  | s => some s

/-- `visit_stmts`. -/
def dropStmts (ip : ℕ) : List Stmt → Option (List Stmt)
  | [] => some []
  | s :: ss => do
    let s' ← dropStmt ip s
    let ss' ← dropStmts (ipBehind arch ip s) ss
    return s' :: ss'

end

/-- The address that the name of a function holds. -/
def nameAddr (f : FnDecl) : Option ℕ := do
  let rest ← Text.stripPrefix? f.name "sub_".toList
  Text.fromStrRadix wordSize 16 rest

/-- Where the pass takes a function to start at the cursor `cursor` of its section. One without a
section is visited with the cursor `0`, which is `fn_base_addr`. -/
def functionStart (cursor : ℕ) (f : FnDecl) : ℕ :=
  match f.addr with
  | some a => a.toNat
  | none => (nameAddr f).getD cursor

mutual

/-- `visit_section_items` on one item, with the cursor behind it. A function's size is estimated
before its bytes are dropped. -/
def dropSectionItem (cursor : ℕ) : Item → Option (Item × ℕ)
  | .function f => do
    let start := functionStart cursor f
    let size ← stmtsTotalBytesAt checks start f.body
    let body ← dropStmts checks arch start f.body
    return (.function { f with body := body }, saturatingAdd start size)
  | .raw addr bytes => some (.raw addr bytes, saturatingAdd addr.toNat bytes.length)
  | .section name addr items => do
    let items ← dropSectionItems addr.toNat items
    return (.section name addr items, cursor)
  | item => some (item, cursor)

/-- `visit_section_items`. -/
def dropSectionItems (cursor : ℕ) : List Item → Option (List Item)
  | [] => some []
  | item :: items => do
    let (item, cursor) ← dropSectionItem cursor item
    let items ← dropSectionItems cursor items
    return item :: items

end

/-- The pass on one item of a file. -/
def dropTopItem : Item → Option Item
  | .section name addr items => do
    let items ← dropSectionItems checks arch addr.toNat items
    return .section name addr items
  | .function f => do
    let body ← dropStmts checks arch (functionStart 0 f) f.body
    return .function { f with body := body }
  | item => some item

/-- `drop_regenerable_bytes`. -/
def dropRegenerableBytes (items : List Item) : Option (List Item) :=
  items.mapM (dropTopItem checks arch)

end Codec

/-! ## The passes of a backend -/

/-- A backend whose bytes are dropped. -/
inductive DropTarget where
  | x86 (p : X86.Platform) (bitness : X86.Bitness)
  | bpf (variant : Bpf.BpfVariant)

/-- The codec of a backend. -/
def DropTarget.codec (checks : Bool) : DropTarget → ArchCodec
  | .x86 p bitness => X86.x86Codec p bitness
  | .bpf variant => Bpf.bpfCodec checks variant

/-- The passes that `decompile` runs for a backend. -/
def DropTarget.dropBytes (checks : Bool) (target : DropTarget) (items : List Item) :
    Option (List Item) :=
  match target with
  | .x86 p bitness => do
    let items ← dropRegenerableAsmBytes p bitness checks items
    dropRegenerableBytes checks (X86.x86Codec p bitness) items
  | .bpf variant => dropRegenerableBytes checks (Bpf.bpfCodec checks variant) items

end Univdreams.Decompile
