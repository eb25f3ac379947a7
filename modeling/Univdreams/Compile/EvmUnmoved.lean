import Univdreams.Compile.EvmLayout

/-!
# Relocating an unmoved contract

A contract without edits goes through `layout` as a list of parts, the instructions and the raw
items in the order of their offsets. When the parts tile the code, each is placed where it was
(`isIdentity_placePieces`), so that every offset that resolves is its own new offset
(`Placed.IsIdentity.find`). Then a reference is written back as it was (`emit_parts`), and rewriting
a word of a selector table changes nothing (`patchWord_of_isIdentity`).
-/

namespace Univdreams

/-- Parts of a byte string that follow one another, put together, are the bytes they cover. -/
theorem Contig.flatMap_window {α : Type} {code : Bytes} {ext : α → Extent} {bytes : α → Bytes} :
    ∀ {xs : List α} {a b : ℕ}, Contig a (xs.map ext) b →
      (∀ x ∈ xs, bytes x = window code (ext x).start (ext x).len) →
      xs.flatMap bytes = window code a (b - a)
  | [], a, b, h, _ => by
    have hab : a = b := h
    simp [hab, window]
  | x :: xs, a, b, h, hbytes => by
    obtain ⟨hstart, hrest⟩ := h
    have hle := hrest.le
    have hlen : b - a = (ext x).len + (b - (ext x).stop) := by
      unfold Extent.stop at *
      omega
    have ih := Contig.flatMap_window hrest fun y hy => hbytes y (by simp [hy])
    rw [List.flatMap_cons, ih, hbytes x (by simp), hlen, ← window_add, ← hstart]
    rfl

end Univdreams

namespace Univdreams.Compile

open List

open Ast (UdFile)
open Evm
open Decompile (Cfg)

variable {reloc : Reloc} {insns : List DecodedInsn}

/-! ## Placing without moving -/

/-- Everything is placed where it was. -/
structure Placed.IsIdentity (p : Placed) : Prop where
  labels : ∀ l ∈ p.labels, l.1 = .codeEnd ∨ l.1 = .orig l.2
  marks : ∀ m ∈ p.marks, m.1 = m.2
  spans : ∀ s ∈ p.spans, s.pc = s.orig ∧ s.newLen = s.origLen

namespace Placed.IsIdentity

variable {p : Placed}

/-- The new offset of an original offset is that offset, where there is one. -/
theorem find (h : p.IsIdentity) {x v : ℕ} (hx : p.find (.orig x) = some v) : v = x := by
  have hspan : ∀ {q : Span → Bool} {f : Span → ℕ} {v : ℕ},
      (p.spans.find? q).map f = some v → ∃ s, s.pc = s.orig ∧ s.newLen = s.origLen ∧ q s ∧
        f s = v := by
    intro q f v hv
    obtain ⟨s, hs, hf⟩ := Option.map_eq_some_iff.1 hv
    obtain ⟨hpc, hlen⟩ := h.spans s (List.mem_of_find?_eq_some hs)
    exact ⟨s, hpc, hlen, List.find?_some hs, hf⟩
  unfold Placed.find at hx
  cases hl : p.labels.lookup (.orig x) with
  | some w =>
    rw [hl] at hx
    obtain ⟨_, _, hsplit, -⟩ := lookup_eq_some_iff.1 hl
    have hmem : (Target.orig x, w) ∈ p.labels := by simp [hsplit]
    rcases h.labels _ hmem with hend | horig
    · cases hend
    have hxw : x = w := Target.orig.inj horig
    rw [hxw]
    exact (Option.some_inj.1 hx).symm
  | none =>
    rw [hl] at hx
    rcases Option.or_eq_some_iff.1 hx with hx | ⟨-, hx⟩
    · obtain ⟨s, hpc, -, hq, hv⟩ := hspan hx
      have hq : s.orig = x := by simpa using hq
      omega
    rcases Option.or_eq_some_iff.1 hx with hx | ⟨-, hx⟩
    · obtain ⟨s, hpc, hlen, hq, hv⟩ := hspan hx
      have hq : s.orig + s.origLen = x := by simpa using hq
      omega
    obtain ⟨s, hpc, -, hq, hv⟩ := hspan hx
    have hq : s.orig < x ∧ x < s.orig + s.origLen ∧ s.origLen = s.newLen := by simpa using hq
    omega

end Placed.IsIdentity

/-! ## Parts -/

/-- A part of a contract: an instruction with its index, or a raw item. -/
inductive Part where
  | insn (k : ℕ) (ins : DecodedInsn)
  | raw (d : ℕ × Bytes)

namespace Part

/-- The bytes of a part. -/
def bytes : Part → Bytes
  | insn _ ins => ins.originalBytes
  | raw d => d.2

/-- The place of a part. -/
def extent : Part → Extent
  | insn _ ins => ins.extent
  | raw d => ⟨d.1, d.2.length⟩

/-- The pieces of a part that stays as it is. -/
def pieces (reloc : Reloc) : Part → List Piece
  | insn k ins =>
    (.mark ins.addr :: if ins.opcode = jumpdest then [.label (.orig ins.addr)] else []) ++
      if reloc.isRef k ∧ ¬ins.isTruncated then
        [.push ins.info.immLen (.orig (ins.pushValue.getD 0)) (k ∈ reloc.fixed)]
      else [.bytes ins.originalBytes]
  | raw d => [.data d.1 d.2.length d.2]

end Part

/-- A reference among the parts is an instruction whose pushed value is known. -/
def KnownRefs (reloc : Reloc) (parts : List Part) : Prop :=
  ∀ k ins, Part.insn k ins ∈ parts → reloc.isRef k → ∃ v, ins.pushValue = some v

/-- Placing a part at its own offset moves nothing. -/
theorem add_part {x : Part} {p : Placed} (h : p.IsIdentity) (hpc : p.pc = x.extent.start) :
    ((x.pieces reloc).foldl Placed.add p).IsIdentity ∧
      ((x.pieces reloc).foldl Placed.add p).pc = x.extent.stop := by
  cases x with
  | raw d =>
    have hpc : p.pc = d.1 := hpc
    refine ⟨⟨h.labels, h.marks, ?_⟩, ?_⟩
    · intro s hs
      rcases mem_append.1 hs with hs | hs
      · exact h.spans s hs
      · rw [mem_singleton.1 hs]
        exact ⟨hpc, rfl⟩
    · show p.pc + d.2.length = d.1 + d.2.length
      rw [hpc]
  | insn k ins =>
    have hpc : p.pc = ins.addr := hpc
    -- The mark and the label define the offset of the instruction.
    obtain ⟨q, hq, hqid, hqpc⟩ : ∃ q, (Piece.mark ins.addr ::
        if ins.opcode = jumpdest then [Piece.label (.orig ins.addr)]
          else []).foldl Placed.add p = q ∧
        q.IsIdentity ∧ q.pc = ins.addr := by
      have hmark : ∀ m ∈ (ins.addr, p.pc) :: p.marks, m.1 = m.2 := by
        intro m hm
        rcases mem_cons.1 hm with rfl | hm
        · exact hpc.symm
        · exact h.marks m hm
      by_cases hdest : ins.opcode = jumpdest
      · rw [if_pos hdest]
        refine ⟨_, rfl, ⟨?_, hmark, h.spans⟩, hpc⟩
        intro l hl
        rcases mem_cons.1 hl with rfl | hl
        · exact .inr (congrArg Target.orig hpc.symm)
        · exact h.labels l hl
      · rw [if_neg hdest]
        exact ⟨_, rfl, ⟨h.labels, hmark, h.spans⟩, hpc⟩
    rw [Part.pieces, foldl_append, hq]
    by_cases href : reloc.isRef k ∧ ¬ins.isTruncated
    · rw [if_pos href]
      refine ⟨⟨hqid.labels, hqid.marks, hqid.spans⟩, ?_⟩
      have hfull : ins.immediate.length = (opInfo ins.opcode).immLen :=
        DecodedInsn.isTruncated_eq_false.1 (Bool.eq_false_of_not_eq_true href.2)
      show q.pc + (1 + ins.info.immLen) = ins.addr + ins.originalBytes.length
      rw [hqpc, DecodedInsn.length_originalBytes, hfull, DecodedInsn.info, Nat.add_comm 1]
    rw [if_neg href]
    refine ⟨⟨hqid.labels, hqid.marks, hqid.spans⟩, ?_⟩
    show q.pc + ins.originalBytes.length = ins.addr + ins.originalBytes.length
    rw [hqpc]

/-- Parts that follow one another are placed where they are. -/
theorem add_parts : ∀ {parts : List Part} {p : Placed} {b : ℕ}, p.IsIdentity →
    Contig p.pc (parts.map Part.extent) b →
    ((parts.flatMap (Part.pieces reloc)).foldl Placed.add p).IsIdentity
  | [], p, b, h, _ => h
  | x :: parts, p, b, h, hc => by
    obtain ⟨hstart, hrest⟩ := hc
    obtain ⟨hid, hpc⟩ := @add_part reloc x p h hstart.symm
    rw [flatMap_cons, foldl_append]
    rw [← hpc] at hrest
    exact add_parts hid hrest

/-- The first pass over a tiling moves nothing. -/
theorem isIdentity_placePieces {parts : List Part} {n : ℕ}
    (h : Contig 0 (parts.map Part.extent) n) :
    (placePieces (parts.flatMap (Part.pieces reloc))).IsIdentity := by
  have hstart : ({} : Placed).IsIdentity := ⟨by simp, by simp, by simp⟩
  have hid : ((parts.flatMap (Part.pieces reloc)).foldl Placed.add {}).IsIdentity :=
  add_parts hstart h
  refine ⟨?_, hid.marks, hid.spans⟩
  intro l hl
  rcases mem_cons.1 hl with rfl | hl
  · exact .inl rfl
  · exact hid.labels l hl

/-! ## Writing without moving -/

/-- Two lists of pieces are emitted one after the other. -/
theorem emit_append {p : Placed} : ∀ (xs ys : List Piece),
    p.emit (xs ++ ys) = (do let a ← p.emit xs; let b ← p.emit ys; .ok (a ++ b))
  | [], ys => by
    show p.emit ys = p.emit ys >>= fun b => .ok b
    cases p.emit ys <;> rfl
  | x :: xs, ys => by
    rw [List.cons_append, Placed.emit, emit_append xs ys, Placed.emit]
    cases p.emitPiece x with
    | error e => rfl
    | ok a =>
      cases p.emit xs with
      | error e => rfl
      | ok b =>
        cases p.emit ys with
        | error e => rfl
        | ok c => simp [bind, Except.bind]

/-- A part that is written is written as it was. -/
theorem emit_part {p : Placed} (h : p.IsIdentity) {x : Part} {out : Bytes}
    (hx : ∀ k ins, x = .insn k ins → reloc.isRef k → ∃ v, ins.pushValue = some v)
    (hout : p.emit (x.pieces reloc) = .ok out) : out = x.bytes := by
  have hone : ∀ piece, p.emit [piece] = p.emitPiece piece := by
    intro piece
    rw [Placed.emit]
    cases p.emitPiece piece with
    | error e => rfl
    | ok b => simp [Placed.emit, bind, Except.bind]
  cases x with
  | raw d =>
    rw [Part.pieces, hone] at hout
    exact (Except.ok.inj hout).symm
  | insn k ins =>
    have hhead : p.emit (.mark ins.addr ::
        if ins.opcode = jumpdest then [.label (.orig ins.addr)] else []) = .ok [] := by
      by_cases hdest : ins.opcode = jumpdest
      · rw [if_pos hdest]
        rfl
      · rw [if_neg hdest]
        rfl
    rw [Part.pieces, emit_append, hhead] at hout
    by_cases href : reloc.isRef k ∧ ¬ins.isTruncated
    · obtain ⟨v, hv⟩ := hx k ins rfl href.1
      rw [if_pos href, hone, hv] at hout
      obtain ⟨b, hb, hout⟩ : ∃ b, _ = Except.ok b ∧ Except.ok ([] ++ b) = Except.ok out :=
        Run.bind_eq_ok.1 hout
      have hout : b = out := Except.ok.inj hout
      rw [Placed.emitPiece] at hb
      cases hfind : p.find (.orig v) with
      | none =>
        rw [Option.getD_some, hfind] at hb
        cases hb
      | some w =>
        have hw : w = v := h.find hfind
        rw [Option.getD_some, hfind] at hb
        simp only at hb
        split_ifs at hb with hmoved hwide
        · cases hb
        · cases hb
        · rw [← hout, ← Except.ok.inj hb, hw]
          exact (DecodedInsn.bytes_of_pushValue hv).symm
    · rw [if_neg href, hone] at hout
      exact (Except.ok.inj hout).symm

/-- The parts that are written are written as they were. -/
theorem emit_parts {p : Placed} (h : p.IsIdentity) :
    ∀ {parts : List Part} {out : Bytes}, KnownRefs reloc parts →
      p.emit (parts.flatMap (Part.pieces reloc)) = .ok out → out = parts.flatMap Part.bytes
  | [], out, _, hout => (Except.ok.inj hout).symm
  | x :: parts, out, hrefs, hout => by
    rw [flatMap_cons, emit_append] at hout
    obtain ⟨a, b, ha, hb, hout⟩ := Run.bind₂_eq_ok.1 hout
    have ha' : a = x.bytes := by
      refine emit_part h ?_ ha
      rintro k ins rfl href
      exact hrefs k ins (by simp) href
    have hb' : b = parts.flatMap Part.bytes :=
      emit_parts h (fun k ins hmem => hrefs k ins (by simp [hmem])) hb
    rw [flatMap_cons, ← ha', ← hb']
    exact (Except.ok.inj hout).symm

/-- Copying bytes over themselves changes nothing. -/
theorem copyInto_self {out b : Bytes} {off : ℕ} (h : slice out off (off + b.length) = some b) :
    copyInto out off b = some out := by
  obtain ⟨⟨-, hle⟩, hb⟩ := slice_eq_some.1 h
  rw [Nat.add_sub_cancel_left, window] at hb
  have hsplit : (out.drop off).take b.length ++ (out.drop off).drop b.length = out.drop off :=
    take_append_drop _ _
  rw [← hb, drop_drop] at hsplit
  rw [copyInto, if_pos hle, append_assoc, hsplit, take_append_drop]

/-- A word of a selector table is rewritten to itself. -/
theorem patchWord_of_isIdentity {p : Placed} (h : p.IsIdentity) {out out' : Bytes} {w : ℕ}
    (hw : p.patchWord out w = .ok out') : out' = out := by
  unfold Placed.patchWord at hw
  cases hat : p.find (.orig w) with
  | none =>
    rw [hat] at hw
    cases hw
  | some off =>
    rw [hat] at hw
    simp only at hw
    cases hold : word16 out off with
    | none =>
      rw [hold] at hw
      cases hw
    | some old =>
      rw [hold] at hw
      simp only at hw
      cases hnew : p.find (.orig old) with
      | none =>
        rw [hnew] at hw
        cases hw
      | some new =>
        rw [hnew] at hw
        simp only at hw
        split_ifs at hw with hwide
        · cases hw
        obtain ⟨b, hb, hbe⟩ := Option.map_eq_some_iff.1 hold
        have hlen : b.length = 2 := by
          obtain ⟨⟨-, hle⟩, rfl⟩ := slice_eq_some.1 hb
          rw [length_window (by omega)]
          omega
        have hnew' : new = old := h.find hnew
        have hbytes : toBe 2 new = b := by rw [hnew', ← hbe, ← hlen, toBe_ofBe]
        rw [hbytes, copyInto_self (by rw [hlen]; exact hb)] at hw
        exact (Except.ok.inj hw).symm

/-! ## The parts of a contract -/

/-- The instructions with their indices and the raw items, as `layout` orders them. -/
def mergeParts : List (DecodedInsn × ℕ) → List (ℕ × Bytes) → List Part
  | [], data => data.map .raw
  | x :: rest, data =>
    (data.takeWhile fun d => d.1 ≤ x.1.addr).map .raw ++
      .insn x.2 x.1 :: mergeParts rest (data.dropWhile fun d => d.1 ≤ x.1.addr)

/-- The part of an instruction with its index. -/
def Part.ofInsn (x : DecodedInsn × ℕ) : Part := .insn x.2 x.1

/-- Merging keeps every instruction and every raw item. -/
theorem mergeParts_perm : ∀ (xs : List (DecodedInsn × ℕ)) (data : List (ℕ × Bytes)),
    (mergeParts xs data).Perm (xs.map Part.ofInsn ++ data.map .raw)
  | [], data => .refl _
  | x :: rest, data => by
    have ih := mergeParts_perm rest (data.dropWhile fun d => d.1 ≤ x.1.addr)
    have hsplit := takeWhile_append_dropWhile (p := fun d : ℕ × Bytes => d.1 ≤ x.1.addr)
      (l := data)
    have hdata : data.map Part.raw =
        (data.takeWhile fun d => d.1 ≤ x.1.addr).map Part.raw ++
          (data.dropWhile fun d => d.1 ≤ x.1.addr).map Part.raw := by
      rw [← map_append, hsplit]
    rw [mergeParts, map_cons, hdata, cons_append]
    refine perm_middle.trans (.cons _ ?_)
    refine (ih.append_left _).trans ?_
    rw [← append_assoc, ← append_assoc]
    exact perm_append_comm.append_right _

/-- The parts are in the order of their offsets, when the instructions and the items are. -/
theorem pairwise_mergeParts : ∀ {xs : List (DecodedInsn × ℕ)} {data : List (ℕ × Bytes)},
    xs.Pairwise (fun x y => x.1.addr ≤ y.1.addr) → data.Pairwise (fun d e => d.1 ≤ e.1) →
    (mergeParts xs data).Pairwise fun x y => x.extent.start ≤ y.extent.start
  | [], data, _, hdata => pairwise_map.2 hdata
  | x :: rest, data, hxs, hdata => by
    obtain ⟨hhead, hrest⟩ := pairwise_cons.1 hxs
    have hdrop : (data.dropWhile fun d => d.1 ≤ x.1.addr).Pairwise fun d e => d.1 ≤ e.1 :=
      hdata.sublist (dropWhile_sublist _)
    have htake : (data.takeWhile fun d => d.1 ≤ x.1.addr).Pairwise fun d e => d.1 ≤ e.1 :=
      hdata.sublist (takeWhile_sublist _)
    -- The items that are left lie behind the instruction.
    have hbehind : ∀ d ∈ data.dropWhile fun d => d.1 ≤ x.1.addr, x.1.addr ≤ d.1 := by
      intro d hd
      cases hcut : data.dropWhile fun d => d.1 ≤ x.1.addr with
      | nil => simp [hcut] at hd
      | cons e es =>
        have he : ¬e.1 ≤ x.1.addr := by
          have := head_dropWhile_not (p := fun d : ℕ × Bytes => d.1 ≤ x.1.addr) (l := data)
            (by simp [hcut])
          simpa [hcut] using this
        rw [hcut] at hd hdrop
        rcases mem_cons.1 hd with rfl | hd
        · omega
        · have := (pairwise_cons.1 hdrop).1 d hd
          omega
    have hlater : ∀ y ∈ mergeParts rest (data.dropWhile fun d => d.1 ≤ x.1.addr),
        x.1.addr ≤ y.extent.start := by
      intro y hy
      rcases mem_append.1 ((mergeParts_perm _ _).mem_iff.1 hy) with hy | hy
      · obtain ⟨z, hz, rfl⟩ := mem_map.1 hy
        exact hhead z hz
      · obtain ⟨d, hd, rfl⟩ := mem_map.1 hy
        exact hbehind d hd
    have hbefore : ∀ d ∈ data.takeWhile fun d => d.1 ≤ x.1.addr, d.1 ≤ x.1.addr := by
      intro d hd
      simpa using mem_takeWhile_imp hd
    rw [mergeParts, pairwise_append]
    refine ⟨pairwise_map.2 htake, ?_, ?_⟩
    · rw [pairwise_cons]
      exact ⟨hlater, pairwise_mergeParts hrest hdrop⟩
    intro y hy z hz
    obtain ⟨d, hd, rfl⟩ := mem_map.1 hy
    have hdx : d.1 ≤ x.1.addr := hbefore d hd
    rcases mem_cons.1 hz with rfl | hz
    · exact hdx
    · exact hdx.trans (hlater z hz)

/-- Without edits, the pieces of a contract are the pieces of its parts. -/
theorem layoutLoop_unmoved {words : List ℕ} :
    ∀ {fuel k : ℕ} {data : List (ℕ × Bytes)}, insns.length ≤ fuel + k →
      layoutLoop insns reloc { tableWords := words } (fuel + 1) k data [] =
        .ok ((mergeParts (insns.zipIdx.drop k) data).flatMap (Part.pieces reloc)) := by
  have hdata : ∀ data : List (ℕ × Bytes), data.map ({ tableWords := words } : Adjust).dataPiece =
        (data.map Part.raw).flatMap (Part.pieces reloc) := by
    intro data
    induction data with
    | nil => rfl
    | cons d data ih =>
      rw [map_cons, ih]
      rfl
  intro fuel
  induction fuel with
  | zero =>
    intro k data h
    have hnone : insns[k]? = none := List.getElem?_eq_none (by omega)
    have hdrop : insns.zipIdx.drop k = [] := drop_eq_nil_of_le (by simp; omega)
    rw [hdrop, layoutLoop, hnone, mergeParts]
    simp only [insertionSort_nil, flatMap_nil, hdata, nil_append]
  | succ fuel ih =>
    intro k data h
    rw [layoutLoop]
    cases hk : insns[k]? with
    | none =>
      have hdrop : insns.zipIdx.drop k = [] :=
        drop_eq_nil_of_le (by simpa using List.getElem?_eq_none_iff.1 hk)
      rw [hdrop, mergeParts]
      simp only [insertionSort_nil, flatMap_nil, hdata, nil_append]
    | some ins =>
      obtain ⟨hlt, hins⟩ := List.getElem?_eq_some_iff.1 hk
      have hdrop : insns.zipIdx.drop k = (ins, k) :: insns.zipIdx.drop (k + 1) := by
        rw [drop_eq_getElem_cons (by simpa using hlt)]
        simp [hins]
      have hrec : layoutLoop insns reloc { tableWords := words } (fuel + 1) (k + 1)
          (data.dropWhile fun d => d.1 ≤ ins.addr) [] = _ := ih (by omega)
      have hown : insnPieces reloc { tableWords := words } k ins =
          .ok ((Part.insn k ins).pieces reloc) := by
        rw [insnPieces, Part.pieces]
        split_ifs <;> rfl
      rw [hdrop, mergeParts]
      simp only [filter_nil, flatMap_nil, List.find?_nil, Option.map_none, Option.getD_none, ne_eq,
        not_true_eq_false, if_false, reverse_nil, lookup_nil, append_nil]
      rw [hown, hrec, hdata]
      simp [bind, Except.bind]

/-! ## The identity -/

/-- The instructions and the raw items tile the code: they are not empty, do not overlap, leave no
byte out, and each is the bytes at its place. The instructions are in order. -/
structure TiledBy (code : Bytes) (insns : List DecodedInsn) (raws : List (ℕ × Bytes)) : Prop where
  sorted : insns.Pairwise fun x y => x.addr < y.addr
  nonempty : ∀ d ∈ raws, d.2 ≠ []
  tiles : Tiles (insns.map DecodedInsn.extent ++ raws.map fun d => ⟨d.1, d.2.length⟩) code.length
  insn_bytes : ∀ ins ∈ insns, ins.originalBytes = window code ins.addr ins.originalBytes.length
  raw_bytes : ∀ d ∈ raws, d.2 = window code d.1 d.2.length

/-- The parts of a tiled contract in the order of `layout`. -/
def partsOf (insns : List DecodedInsn) (raws : List (ℕ × Bytes)) : List Part :=
  mergeParts insns.zipIdx (raws.insertionSort fun d e => d.1 ≤ e.1)

theorem mem_partsOf {raws : List (ℕ × Bytes)} {x : Part} :
    x ∈ partsOf insns raws ↔
      (∃ k ins, insns[k]? = some ins ∧ x = .insn k ins) ∨ ∃ d ∈ raws, x = .raw d := by
  rw [partsOf, (mergeParts_perm _ _).mem_iff, mem_append, mem_map, mem_map]
  constructor
  · rintro (⟨p, hp, rfl⟩ | ⟨d, hd, rfl⟩)
    · exact .inl ⟨p.2, p.1, mem_zipIdx_iff_getElem?.1 hp, rfl⟩
    · exact .inr ⟨d, (mem_insertionSort _).1 hd, rfl⟩
  rintro (⟨k, ins, hk, rfl⟩ | ⟨d, hd, rfl⟩)
  · exact .inl ⟨(ins, k), mem_zipIdx_iff_getElem?.2 hk, rfl⟩
  · exact .inr ⟨d, (mem_insertionSort _).2 hd, rfl⟩

/-- The parts of a tiled contract follow one another from its start to its end. -/
theorem TiledBy.contig {code : Bytes} {raws : List (ℕ × Bytes)} (h : TiledBy code insns raws) :
    Contig 0 ((partsOf insns raws).map Part.extent) code.length := by
  refine Tiles.contig ?_ ?_ ?_
  · have hzip : insns.zipIdx.map (DecodedInsn.extent ∘ Prod.fst) =
      insns.map DecodedInsn.extent := by
      rw [← map_map, zipIdx_map_fst]
    have hperm : ((partsOf insns raws).map Part.extent).Perm
        (insns.map DecodedInsn.extent ++ raws.map fun d => ⟨d.1, d.2.length⟩) := by
      refine ((mergeParts_perm _ _).map Part.extent).trans ?_
      rw [map_append, map_map, map_map, ← hzip]
      exact List.Perm.append_left _ ((perm_insertionSort _ _).map _)
    exact h.tiles.perm hperm.symm
  · intro e he
    obtain ⟨x, hx, rfl⟩ := mem_map.1 he
    rcases mem_partsOf.1 hx with ⟨k, ins, -, rfl⟩ | ⟨d, hd, rfl⟩
    · exact Nat.succ_pos _
    · exact length_pos_of_ne_nil (h.nonempty d hd)
  · rw [pairwise_map]
    refine pairwise_mergeParts ?_ ?_
    · have hmap : (insns.zipIdx.map Prod.fst).Pairwise fun x y => x.addr ≤ y.addr := by
        rw [zipIdx_map_fst]
        exact h.sorted.imp le_of_lt
      rw [pairwise_map] at hmap
      exact hmap
    have htotal : Std.Total fun d e : ℕ × Bytes => d.1 ≤ e.1 := ⟨fun d e => le_total d.1 e.1⟩
    have htrans : IsTrans (ℕ × Bytes) fun d e => d.1 ≤ e.1 := ⟨fun _ _ _ hde hef => hde.trans hef⟩
    exact pairwise_insertionSort _ raws

/-- Laying out a contract that nothing has moved gives the contract back: if its instructions and
raw items tile its code, and there are no patches, no fixups, no changed sections and no rewrites,
then with the relocations that the analysis finds, whatever table words are rewritten, the output is
the code and every mark maps an offset to itself. -/
theorem layout_unmoved {code : Bytes} {file : UdFile} {insns : List DecodedInsn} {cfg : Cfg}
    {dataSpans : List (ℕ × ℕ)} {reloc : Reloc} {words : List ℕ} {out : Bytes}
    {marks : List (ℕ × ℕ)} (htiled : TiledBy code insns (rawItems file))
    (hreloc : analyzeReloc insns cfg dataSpans = some reloc)
    (hout : layout file insns reloc [] { tableWords := words } = .ok (out, marks)) :
    out = code ∧ ∀ m ∈ marks, m.1 = m.2 := by
  have hpieces : layoutLoop insns reloc { tableWords := words } (insns.length + 1) 0
      ((rawItems file).insertionSort fun d e => d.1 ≤ e.1) [] =
      .ok ((partsOf insns (rawItems file)).flatMap (Part.pieces reloc)) :=
    layoutLoop_unmoved (by omega)
  have hid : (placePieces ((partsOf insns (rawItems file)).flatMap
    (Part.pieces reloc))).IsIdentity :=
    isIdentity_placePieces htiled.contig
  have hrefs : KnownRefs reloc (partsOf insns (rawItems file)) := by
    intro k ins hmem href
    rcases mem_partsOf.1 hmem with ⟨k', ins', hk', hx⟩ | ⟨d, -, hx⟩
    · obtain ⟨rfl, rfl⟩ := Part.insn.inj hx
      obtain ⟨ins'', v, hins, hv⟩ := analyzeReloc_isRef hreloc href
      rw [hk'] at hins
      exact ⟨v, Option.some_inj.1 hins ▸ hv⟩
    · cases hx
  rw [layout, if_neg (by simp [patchesApart])] at hout
  dsimp only at hout
  rw [hpieces] at hout
  have hout : resolve ((partsOf insns (rawItems file)).flatMap (Part.pieces reloc)) words =
      .ok (out, marks) := hout
  obtain ⟨bytes, patched, hbytes, hpatched, hout⟩ := Run.steps₂_eq_ok.1 hout
  obtain ⟨rfl, rfl⟩ := Prod.mk.inj hout
  refine ⟨?_, hid.marks⟩
  have hwritten : bytes = code := by
    have hparts : ∀ x ∈ partsOf insns (rawItems file),
        x.bytes = window code x.extent.start x.extent.len := by
      intro x hx
      rcases mem_partsOf.1 hx with ⟨k, ins, hk, rfl⟩ | ⟨d, hd, rfl⟩
      · exact htiled.insn_bytes ins (List.mem_of_getElem? hk)
      · exact htiled.raw_bytes d hd
    rw [emit_parts hid hrefs hbytes, htiled.contig.flatMap_window hparts]
    simp [window]
  have hsame : patched = bytes :=
    Run.foldlM_invariant (P := (· = bytes))
      (fun w _ out out' h hw => (patchWord_of_isIdentity hid hw).trans h) rfl hpatched
  rw [hsame, hwritten]

/-- A jump over `STOP`, and a table of one word that points at the jump's target. -/
def jumpTable : Bytes := [0x60, 0x04, 0x56, 0x00, 0x5b, 0x00, 0x00, 0x04]

/-- The file of `jumpTable`: the table is a raw item. -/
def jumpTableFile : UdFile := ⟨⟨[]⟩, [.raw 6 [0x00, 0x04]]⟩

theorem tiledBy_jumpTable :
    TiledBy jumpTable (Evm.decodeRange (jumpTable.take 6) 0) (rawItems jumpTableFile) where
  sorted := by decide
  nonempty := by decide
  tiles := Contig.tiles (show Contig 0 _ 8 from ⟨rfl, rfl, rfl, rfl, rfl, rfl, rfl⟩)
  insn_bytes := by decide
  raw_bytes := by decide

/-- A contract whose dispatch table holds a code offset keeps its bytes. -/
theorem layout_unmoved_jumpTable :
    ∃ (insns : List DecodedInsn) (cfg : Cfg) (reloc : Reloc) (out : Bytes) (marks : List (ℕ × ℕ)),
      Decompile.buildWith true insns [] = some cfg ∧
        analyzeReloc insns cfg [(6, 8)] = some reloc ∧ reloc.code = [0] ∧
        layout jumpTableFile insns reloc [] { tableWords := [6] } = .ok (out, marks) ∧
        out = jumpTable ∧ ∀ m ∈ marks, m.1 = m.2 := by
  obtain ⟨cfg, hcfg⟩ : ∃ cfg, Decompile.buildWith true (Evm.decodeRange (jumpTable.take 6) 0) [] =
      some cfg := Option.isSome_iff_exists.1 rfl
  have hreloc : (Decompile.buildWith true (Evm.decodeRange (jumpTable.take 6) 0) []).bind
      (analyzeReloc (Evm.decodeRange (jumpTable.take 6) 0) · [(6, 8)]) = some ⟨[0], [], []⟩ := rfl
  rw [hcfg, Option.bind_some] at hreloc
  have hlayout : layout jumpTableFile (Evm.decodeRange (jumpTable.take 6) 0) ⟨[0], [], []⟩ []
      { tableWords := [6] } = .ok (jumpTable, [(5, 5), (4, 4), (3, 3), (2, 2), (0, 0)]) := rfl
  exact ⟨_, cfg, _, _, _, hcfg, hreloc, rfl, hlayout,
    layout_unmoved tiledBy_jumpTable hreloc hlayout⟩

end Univdreams.Compile
