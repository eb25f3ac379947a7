import Univdreams.Ast
import Univdreams.Compile.EvmEmit
import Univdreams.Compile.EvmReloc

/-!
# Laying out an edited contract

The layout of `src/translate/compile/evm_edit.rs`: `layout` turns the instructions, the patches and
the data regions of a contract into pieces, and `resolve` gives every piece its offset, writes the
pieces and rewrites the words of a selector table.

Offsets are resolved through what the pieces define. `Placed` is the result of the first pass over
them: labels, marks and data regions with their new offsets. A map of the source is a list of pairs
with the newest first.
-/

namespace Univdreams.Compile

open Ast (UdFile)
open Evm
open Decompile (Cfg)
open Text

/-- `EvmEditError`: an edit that cannot be compiled. -/
structure EvmEditError where
  place : Text
  message : Text
deriving DecidableEq, Repr

/-- `whole_file`: an error about the whole file. -/
def wholeFile (message : Text) : EvmEditError := ⟨"evm".toList, message⟩

/-! ## Resolving the pieces -/

/-- A data region: its original offset, its new offset, and its original and new sizes. -/
structure Span where
  orig : ℕ
  pc : ℕ
  origLen : ℕ
  newLen : ℕ
deriving DecidableEq, Repr

/-- What the first pass of `resolve` knows. -/
structure Placed where
  labels : List (Target × ℕ) := []
  marks : List (ℕ × ℕ) := []
  /-- The data regions in order. -/
  spans : List Span := []
  /-- The offset behind the pieces so far. -/
  pc : ℕ := 0
deriving DecidableEq, Repr

/-- One piece of the first pass. -/
def Placed.add (p : Placed) : Piece → Placed
  | .bytes b => { p with pc := p.pc + b.length }
  | .label t => { p with labels := (t, p.pc) :: p.labels }
  | .mark a => { p with marks := (a, p.pc) :: p.marks }
  | .push width _ _ => { p with pc := p.pc + (1 + width) }
  | .data orig origLen b =>
    { p with spans := p.spans ++ [⟨orig, p.pc, origLen, b.length⟩], pc := p.pc + b.length }

/-- The first pass of `resolve`. -/
def placePieces (pieces : List Piece) : Placed :=
  let p := pieces.foldl Placed.add {}
  { p with labels := (.codeEnd, p.pc) :: p.labels }

/-- `find`: the new offset of a target. One without a label is the start of a data region, the end
of one, or inside one that kept its size. -/
def Placed.find (p : Placed) (t : Target) : Option ℕ :=
  match p.labels.lookup t with
  | some v => some v
  | none => match t with
    | .orig x =>
      let start := (p.spans.find? fun s => s.orig = x).map Span.pc
      let stop := (p.spans.find? fun s => s.orig + s.origLen = x).map fun s => s.pc + s.newLen
      let inside := (p.spans.find? fun s =>
        s.orig < x ∧ x < s.orig + s.origLen ∧ s.origLen = s.newLen).map fun s => s.pc + (x - s.orig)
      start.or (stop.or inside)
    | _ => none

/-- The error for a push whose target is gone. -/
def lostTarget (t : Target) : EvmEditError :=
  let at_ := match t with
    | .orig x => "(0x".toList ++ toHex x ++ ") ".toList
    | _ => []
  wholeFile ("a jump target ".toList ++ at_ ++ "was inside an edited statement's code".toList)

/-- The debug text of a target. -/
def Target.debug : Target → Text
  | .orig x => "Orig(".toList ++ toDec x ++ ")".toList
  | .fresh n => "Fresh(".toList ++ toDec n ++ ")".toList
  | .codeEnd => "End".toList

/-- The error for a constant that is also a number. -/
def movedConstant (t : Target) : EvmEditError :=
  wholeFile ("the constant ".toList ++ t.debug ++
    " is used both as a jump target and as a number, and the edit moves it".toList)

/-- The error for an offset that is too large. -/
def noLongerFits (v w : ℕ) : EvmEditError :=
  wholeFile ("offset 0x".toList ++ toHex v ++ " no longer fits a PUSH".toList ++ toDec w)

/-- The bytes of a piece. -/
def Placed.emitPiece (p : Placed) : Piece → Run EvmEditError Bytes
  | .bytes b => .ok b
  | .data _ _ b => .ok b
  | .label _ => .ok []
  | .mark _ => .ok []
  | .push width target fixed =>
    match p.find target with
    | none => fail (lostTarget target)
    | some v =>
      if fixed ∧ target ≠ .orig v then fail (movedConstant target)
      else if width < 8 ∧ 256 ^ width ≤ v then fail (noLongerFits v width)
      else .ok ((0x5f + UInt8.ofNat width) :: toBe width v)

/-- The second pass of `resolve`: the bytes of all pieces. -/
def Placed.emit (p : Placed) : List Piece → Run EvmEditError Bytes
  | [] => .ok []
  | piece :: rest => do
    let b ← p.emitPiece piece
    let bs ← p.emit rest
    .ok (b ++ bs)

/-- The error for a word of a selector table. -/
def tableError (w : ℕ) (what : String) : EvmEditError :=
  wholeFile ("selector table word 0x".toList ++ toHex w ++ ": ".toList ++ what.toList)

/-- The two bytes at an offset, where they are there. -/
def word16 (code : Bytes) (off : ℕ) : Option ℕ := (slice code off (off + 2)).map ofBe

/-- One word of a selector table is rewritten in place. -/
def Placed.patchWord (p : Placed) (out : Bytes) (w : ℕ) : Run EvmEditError Bytes :=
  match p.find (.orig w) with
  | none => fail (tableError w "not in the data")
  | some off => match word16 out off with
    | none => fail (tableError w "past the end")
    | some old => match p.find (.orig old) with
      | none => fail (tableError w "its target was inside an edited statement's code")
      | some new =>
        if 2 ^ 16 ≤ new then fail (tableError w "its target no longer fits 16 bits")
        else orPanic (copyInto out off (toBe 2 new))

/-- `resolve`: the bytes of the laid-out pieces, and the new offsets of the marks. -/
def resolve (pieces : List Piece) (tableWords : List ℕ) :
    Run EvmEditError (Bytes × List (ℕ × ℕ)) := do
  let p := placePieces pieces
  let out ← p.emit pieces
  let out ← tableWords.foldlM p.patchWord out
  .ok (out, p.marks)

/-! ## From the contract to pieces -/

/-- `Fixup`: a new value for a push. -/
inductive Fixup where
  | const (v : ℕ)
  /-- The size of the laid-out code. -/
  | codeEnd
  /-- The new offset of a data region. -/
  | data (orig : ℕ)
deriving DecidableEq, Repr

/-- `SectionChange`: an embedded contract whose code an edit changed, with its offset and its new
bytes. -/
structure SectionChange where
  addr : ℕ
  new : Bytes
deriving DecidableEq, Repr

/-- `Patch`: generated code in place of the instructions `start..stop`. -/
structure Patch where
  start : ℕ
  stop : ℕ
  pieces : List Piece
deriving DecidableEq, Repr

/-- `Adjust`: the changes besides the patches. -/
structure Adjust where
  /-- `PUSH d; PC; ADD` sequences: the indices of their ends, and the offset they compute. -/
  pcRewrites : List (ℕ × ℕ × ℕ) := []
  fixups : List (ℕ × Fixup) := []
  sections : List SectionChange := []
  /-- The offsets of the words in the data that hold offsets. -/
  tableWords : List ℕ := []
deriving DecidableEq, Repr

/-- The piece of a data region, with the new bytes of a changed section. -/
def Adjust.dataPiece (adjust : Adjust) (d : ℕ × Bytes) : Piece :=
  .data d.1 d.2.length
    (((adjust.sections.find? fun s => s.addr = d.1).map SectionChange.new).getD d.2)

/-- The patches do not overlap: none starts inside what a patch with a smaller start covers. -/
def patchesApart (patches : List Patch) : Bool :=
  patches.all fun p => patches.all fun q => ¬(q.start < p.start ∧ p.start < q.stop)

/-- The error for patches that overlap. -/
def overlappingPatches : EvmEditError := wholeFile
  "two edits touch the same instructions; edit fewer neighbouring statements at once".toList

/-- The pieces of an instruction that stays. -/
def insnPieces (reloc : Reloc) (adjust : Adjust) (k : ℕ) (ins : DecodedInsn) :
    Run EvmEditError (List Piece) :=
  let head := .mark ins.addr :: if ins.opcode = jumpdest then [.label (.orig ins.addr)] else []
  let width := ins.info.immLen
  match adjust.fixups.lookup k with
  | some .codeEnd => .ok (head ++ [.push width .codeEnd false])
  | some (.data v) => .ok (head ++ [.push width (.orig v) false])
  | some (.const v) =>
    if width < 8 ∧ 256 ^ width ≤ v then
      fail (wholeFile ("the deploying code's constant 0x".toList ++ toHex v ++
        " no longer fits its PUSH".toList ++ toDec width))
    else .ok (head ++ [.bytes (ins.opcode :: toBe width v)])
  | none =>
    if reloc.isRef k ∧ ¬ins.isTruncated then
      .ok (head ++ [.push width (.orig (ins.pushValue.getD 0)) (k ∈ reloc.fixed)])
    else .ok (head ++ [.bytes ins.originalBytes])

/-- The loop of `layout` from the instruction `k` on, with the data regions and patches that are
left. One round for each instruction is enough. -/
def layoutLoop (insns : List DecodedInsn) (reloc : Reloc) (adjust : Adjust) :
    ℕ → ℕ → List (ℕ × Bytes) → List Patch → Run EvmEditError (List Piece)
  | 0, _, _, _ => .error .panic
  | fuel + 1, k, data, patches => match insns[k]? with
    | none => .ok (((patches.insertionSort fun p q => p.start ≤ q.start).flatMap Patch.pieces) ++
        data.map adjust.dataPiece)
    | some ins =>
      let before := (data.takeWhile fun d => d.1 ≤ ins.addr).map adjust.dataPiece
      let data := data.dropWhile fun d => d.1 ≤ ins.addr
      let here := patches.filter fun p => p.start = k
      let rest := patches.filter fun p => p.start ≠ k
      let inserted := (here.filter fun p => p.stop = p.start).flatMap Patch.pieces
      let replacing := here.find? fun p => p.stop ≠ p.start
      let patched := before ++ inserted ++ (replacing.map Patch.pieces).getD []
      let next := (replacing.map Patch.stop).getD k
      if next ≠ k then do
        let more ← layoutLoop insns reloc adjust fuel next data rest
        .ok (patched ++ more)
      else match adjust.pcRewrites.reverse.lookup k with
        | some (stop, target) => do
          let more ← layoutLoop insns reloc adjust fuel stop data rest
          .ok (patched ++ .push 2 (.orig target) false :: more)
        | none => do
          let own ← insnPieces reloc adjust k ins
          let more ← layoutLoop insns reloc adjust fuel (k + 1) data rest
          .ok (patched ++ own ++ more)

/-- The raw items of a file: offsets and bytes. -/
def rawItems (file : UdFile) : List (ℕ × Bytes) :=
  file.items.filterMap fun it => match it with
    | .raw addr bytes => some (addr.toNat, bytes)
    | _ => none

/-- `layout`: the bytes of the edited contract, and the new offset of each instruction that
stays. -/
def layout (file : UdFile) (insns : List DecodedInsn) (reloc : Reloc) (patches : List Patch)
    (adjust : Adjust) : Run EvmEditError (Bytes × List (ℕ × ℕ)) := do
  if ¬patchesApart patches then fail overlappingPatches
  else do
    let data := (rawItems file).insertionSort fun d e => d.1 ≤ e.1
    let pieces ← layoutLoop insns reloc adjust (insns.length + 1) 0 data patches
    resolve pieces adjust.tableWords

end Univdreams.Compile
