import Univdreams.Lower.Function

/-!
# Lowering a section to bytes

`lower_section_bytes` and `walk_functions` of `src/translate/compile/lower.rs`. Both walk over the
items of a section with a cursor. A function with a declared address is lowered at that address by
`walk_functions`; the section walker lowers it at the cursor, and only then fills the gap up to the
declared address with zeros.

The two agree on a function that stands directly behind the items before it, and on one behind a gap
in which no statement is encoded for its address (`lowerSectionBytes_lands`).
-/

namespace Univdreams.Lower

open Ast Arch List Run

/-! ## Data items -/

/-- `lower_strings_bytes`: each string with a terminating zero. -/
def lowerStringsBytes (strings : List Text) : Bytes := strings.flatMap fun s => Text.utf8 s ++ [0]

/-- Zeros up to the next multiple of four. -/
def padTo4 (out : Bytes) : Bytes := out ++ List.replicate ((4 - out.length % 4) % 4) 0

/-- `u32::try_from(n).unwrap_or(0)`. -/
def u32OrZero (n : ℕ) : ℕ := if n < 2 ^ 32 then n else 0

/-- Append one note. -/
def lowerNote (out : Bytes) (e : NoteEntry) : Bytes :=
  let header := toLe 4 (u32OrZero ((Text.utf8 e.name).length + 1)) ++
    toLe 4 (u32OrZero e.desc.length) ++
    toLe 4 e.note_type.toNat
  padTo4 (padTo4 (out ++ header ++ Text.utf8 e.name ++ [0]) ++ e.desc)

/-- `lower_notes_bytes`. -/
def lowerNotesBytes (entries : List NoteEntry) : Bytes := entries.foldl lowerNote []

/-- `lower_jump_table_bytes`: the targets relative to the table, or their low 32 bits. -/
def lowerJumpTableBytes (addr : UInt64) (dispatch : Text) (entries : List JumpTableEntry) :
    Run LowerError Bytes :=
  if dispatch = "gcc_pie_rel32".toList then
    .ok (entries.flatMap fun e => toLe 4 (e.target - addr).toNat)
  else if dispatch = "msvc_va32".toList then
    .ok (entries.flatMap fun e => toLe 4 e.target.toNat)
  else fail (.unknownJumpTableDispatch dispatch)

section Walkers

variable (checks : Bool) (arch : ArchCodec)

/-! ## The section walker -/

/-- The bytes so far and the address behind them. -/
structure SectionState where
  out : Bytes
  cursor : ℕ
  deriving DecidableEq, Repr

/-- Append the bytes of an item. An item with an address leaves no gap: zeros fill it. -/
def placeBytes (name : Text) (s : SectionState) (addr : Option UInt64) (bytes : Bytes) :
    Run LowerError SectionState :=
  match addr with
  | none => .ok ⟨s.out ++ bytes, saturatingAdd s.cursor bytes.length⟩
  | some a =>
    if a.toNat < s.cursor then fail (.sectionOverlap name s.cursor a.toNat)
    else .ok ⟨s.out ++ List.replicate (a.toNat - s.cursor) 0 ++ bytes,
      saturatingAdd a.toNat bytes.length⟩

/-- Lower one item of a section. A function is lowered at the cursor. -/
def lowerItem (name : Text) (s : SectionState) : Item → Run LowerError SectionState
  | .comment _ => .ok s
  | .raw addr bytes => placeBytes name s (some addr) bytes
  | .strings addr strings => placeBytes name s (some addr) (lowerStringsBytes strings)
  | .notes addr entries => placeBytes name s (some addr) (lowerNotesBytes entries)
  | .jumpTable addr dispatch entries => do
    let bytes ← lowerJumpTableBytes addr dispatch entries
    placeBytes name s (some addr) bytes
  | .function f => do
    let bytes ← lowerFunctionBytesAt checks arch f (some s.cursor)
    placeBytes name s f.addr bytes
  | .section nested _ _ => fail (.nestedSection nested)

/-- Lower items one after the other. -/
def lowerItems (name : Text) (s : SectionState) (items : List Item) : Run LowerError SectionState :=
  items.foldlM (lowerItem checks arch name) s

/-- `lower_section_bytes`. -/
def lowerSectionBytes (name : Text) (sectionAddr : UInt64) (items : List Item) :
    Run LowerError Bytes := do
  let s ← lowerItems checks arch name ⟨[], sectionAddr.toNat⟩ items
  return s.out

/-- A section lowered to bytes. -/
structure LoweredSection where
  name : Text
  addr : UInt64
  bytes : Bytes
  deriving DecidableEq, Repr

/-- `lower_sections`: the sections of a file, in order. -/
def lowerSections : List Item → Run LowerError (List LoweredSection)
  | [] => return []
  | .section name addr items :: rest => do
    let bytes ← lowerSectionBytes checks arch name addr items
    let sections ← lowerSections rest
    return ⟨name, addr, bytes⟩ :: sections
  | _ :: rest => lowerSections rest

/-! ## The function walker -/

/-- One function lowered to bytes. -/
structure LoweredFunction where
  name : Text
  addr : Option ℕ
  bytes : Bytes
  deriving DecidableEq, Repr

mutual

/-- The functions of an item, and the cursor behind it when there is one. -/
def walkItem (cursor : Option ℕ) : Item → Run LowerError (Option ℕ × List LoweredFunction)
  | .function f => do
    let ip := (f.addr.map UInt64.toNat) <|> cursor
    let bytes ← lowerFunctionBytesAt checks arch f ip
    let placement c := (f.addr.map UInt64.toNat).getD c
    return (cursor.map fun c => saturatingAdd (placement c) bytes.length, [⟨f.name, ip, bytes⟩])
  | .section _ addr items => do
    let fs ← walkFunctions (some addr.toNat) items
    return (cursor, fs)
  | .raw addr bytes => return (cursor.map fun _ => saturatingAdd addr.toNat bytes.length, [])
  | .strings addr strings =>
    return (cursor.map fun _ => saturatingAdd addr.toNat (lowerStringsBytes strings).length, [])
  | .notes addr entries =>
    return (cursor.map fun _ => saturatingAdd addr.toNat (lowerNotesBytes entries).length, [])
  | .jumpTable addr dispatch entries =>
    match cursor with
    | none => return (none, [])
    | some _ => do
      let bytes ← lowerJumpTableBytes addr dispatch entries
      return (some (saturatingAdd addr.toNat bytes.length), [])
  | .comment _ => return (cursor, [])

/-- `walk_functions`. -/
def walkFunctions (cursor : Option ℕ) : List Item → Run LowerError (List LoweredFunction)
  | [] => return []
  | item :: items => do
    let (cursor, fs) ← walkItem cursor item
    let rest ← walkFunctions cursor items
    return fs ++ rest

end

/-- `lower_functions`. -/
def lowerFunctions (file : UdFile) : Run LowerError (List LoweredFunction) :=
  walkFunctions checks arch none file.items

end Walkers

/-! ## What the section walker keeps -/

variable {checks : Bool} {arch : ArchCodec} {name : Text} {sectionAddr : UInt64}

/-- The cursor of a section at `sectionAddr` is the address behind its bytes, cut off at the last
address. -/
def Tracks (sectionAddr : UInt64) (s : SectionState) : Prop :=
  s.cursor = saturatingAdd sectionAddr.toNat s.out.length

variable {s s' : SectionState}

/-- Placing an item succeeds when its address is not behind the cursor. -/
theorem placeBytes_some_eq_ok {a : UInt64} {bytes : Bytes} :
    placeBytes name s (some a) bytes = .ok s' ↔ s.cursor ≤ a.toNat ∧
      s' = ⟨s.out ++ replicate (a.toNat - s.cursor) 0 ++ bytes,
        saturatingAdd a.toNat bytes.length⟩ := by
  simp only [placeBytes]
  split_ifs with h
  · simp only [fail, reduceCtorEq, false_iff, not_and]
    omega
  · rw [Except.ok.injEq]
    exact ⟨fun e => ⟨by omega, e.symm⟩, fun e => e.2.symm⟩

/-- Placing an item only appends, and keeps the cursor behind the bytes. -/
theorem placeBytes_keeps {addr : Option UInt64} {bytes : Bytes} (hs : Tracks sectionAddr s)
    (h : placeBytes name s addr bytes = .ok s') : Tracks sectionAddr s' ∧ s.out <+: s'.out := by
  unfold Tracks at hs ⊢
  have hlt := sectionAddr.toNat_lt
  cases addr with
  | none =>
    simp only [placeBytes, Except.ok.injEq] at h
    subst h
    refine ⟨?_, prefix_append _ _⟩
    simp only [length_append, saturatingAdd, wordSize] at hs ⊢
    omega
  | some a =>
    obtain ⟨hle, rfl⟩ := placeBytes_some_eq_ok.1 h
    have ha := a.toNat_lt
    refine ⟨?_, append_assoc _ _ _ ▸ prefix_append _ _⟩
    simp only [length_append, length_replicate, saturatingAdd, wordSize] at hs ⊢
    omega

/-- An item is not lowered at all, or its bytes are placed. -/
theorem lowerItem_cases {item : Item} (h : lowerItem checks arch name s item = .ok s') :
    s' = s ∨ ∃ addr bytes, placeBytes name s addr bytes = .ok s' := by
  cases item with
  | comment => exact .inl (Except.ok.inj h).symm
  | function | jumpTable =>
    obtain ⟨bytes, -, h⟩ := bind_eq_ok.1 h
    exact .inr ⟨_, bytes, h⟩
  | raw | strings | notes =>
    rw [lowerItem] at h
    exact .inr ⟨_, _, h⟩
  | «section» => cases h

/-- Lowering an item only appends, and keeps the cursor behind the bytes. -/
theorem lowerItem_keeps {item : Item} (hs : Tracks sectionAddr s)
    (h : lowerItem checks arch name s item = .ok s') :
    Tracks sectionAddr s' ∧ s.out <+: s'.out := by
  obtain rfl | ⟨addr, bytes, h⟩ := lowerItem_cases h
  · exact ⟨hs, prefix_rfl⟩
  · exact placeBytes_keeps hs h

/-- Lowering items only appends, and keeps the cursor behind the bytes. -/
theorem lowerItems_keeps {items : List Item} (hs : Tracks sectionAddr s)
    (h : lowerItems checks arch name s items = .ok s') :
    Tracks sectionAddr s' ∧ s.out <+: s'.out := by
  refine foldlM_invariant (P := fun t => Tracks sectionAddr t ∧ s.out <+: t.out) ?_
    ⟨hs, prefix_rfl⟩ h
  intro item _ t t' ht hstep
  obtain ⟨htrack, happ⟩ := lowerItem_keeps ht.1 hstep
  exact ⟨htrack, ht.2.trans happ⟩

/-- The walker starts behind no bytes. -/
theorem tracks_start (sectionAddr : UInt64) : Tracks sectionAddr ⟨[], sectionAddr.toNat⟩ := by
  have hlt := sectionAddr.toNat_lt
  simp only [Tracks, saturatingAdd, wordSize, length_nil]
  omega

/-! ## Where functions land -/

/-- The functions among items. -/
def functionsOf (items : List Item) : List FnDecl :=
  items.filterMap fun
    | .function f => some f
    | _ => none

/-- The function `f`, declared at `a` behind `before`, lands there: what the section holds from `a`
to the end of `f` are its bytes at `a`, and these are what the function walker gives. -/
def LandsAt (checks : Bool) (arch : ArchCodec) (name : Text) (sectionAddr : UInt64)
    (items : List Item) (out : Bytes) (before : List Item) (f : FnDecl) (a : UInt64) : Prop :=
  ∃ bytes s, lowerFunctionBytesAt checks arch f (some a.toNat) = .ok bytes ∧
    lowerItems checks arch name ⟨[], sectionAddr.toNat⟩ (before ++ [.function f]) = .ok s ∧
    s.out <+: out ∧ s.out.drop (a.toNat - sectionAddr.toNat) = bytes ∧
    ∀ fs, walkFunctions checks arch (some sectionAddr.toNat) items = .ok fs →
      fs[(functionsOf before).length]? = some ⟨f.name, some a.toNat, bytes⟩

/-- The function walker gives one function for an item that is one, and else none. -/
theorem length_of_walkItem {item : Item} {cursor cursor' : Option ℕ} {fs : List LoweredFunction}
    (hsec : ∀ nested addr items, item ≠ .section nested addr items)
    (h : walkItem checks arch cursor item = .ok (cursor', fs)) :
    fs.length = (functionsOf [item]).length := by
  cases item with
  | function f =>
    obtain ⟨bytes, -, h⟩ := steps₁_eq_ok.1 h
    obtain ⟨-, hfs⟩ := Prod.mk.inj h
    rw [← hfs]
    rfl
  | «section» nested addr items => exact absurd rfl (hsec nested addr items)
  | jumpTable addr dispatch entries =>
    cases cursor with
    | none =>
      obtain ⟨-, hfs⟩ := Prod.mk.injEq .. ▸ pure_eq_ok.1 h
      rw [← hfs]
      rfl
    | some c =>
      obtain ⟨bytes, -, h⟩ := steps₁_eq_ok.1 h
      obtain ⟨-, hfs⟩ := Prod.mk.inj h
      rw [← hfs]
      rfl
  | _ =>
    obtain ⟨-, hfs⟩ := Prod.mk.injEq .. ▸ pure_eq_ok.1 h
    rw [← hfs]
    rfl

/-- The function walker lists the functions in order, and lowers a declared one at its address. -/
theorem walkFunctions_getElem? {f : FnDecl} {a : UInt64} {after : List Item}
    (ha : f.addr = some a) :
    ∀ {before : List Item} {cursor : Option ℕ} {fs : List LoweredFunction},
      (∀ item ∈ before, ∀ nested addr items, item ≠ .section nested addr items) →
      walkFunctions checks arch cursor (before ++ .function f :: after) = .ok fs →
      ∃ bytes, lowerFunctionBytesAt checks arch f (some a.toNat) = .ok bytes ∧
        fs[(functionsOf before).length]? = some ⟨f.name, some a.toNat, bytes⟩
  | [], cursor, fs, _, h => by
    obtain ⟨⟨cursor', fs1⟩, rest, h1, -, h⟩ := bind₂_eq_ok.1 h
    obtain ⟨bytes, hbytes, h1⟩ := steps₁_eq_ok.1 h1
    obtain ⟨-, hfs1⟩ := Prod.mk.inj h1
    have hfs : fs1 ++ rest = fs := pure_eq_ok.1 h
    rw [ha] at hbytes hfs1
    refine ⟨bytes, hbytes, ?_⟩
    rw [← hfs, ← hfs1]
    rfl
  | item :: before, cursor, fs, hsec, h => by
    obtain ⟨⟨cursor', fs1⟩, rest, h1, hrest, h⟩ := steps₂_eq_ok.1 h
    have hfs : fs1 ++ rest = fs := h
    obtain ⟨bytes, hbytes, hget⟩ := walkFunctions_getElem? ha
      (fun it hit => hsec it (by simp [hit])) hrest
    have hlen := length_of_walkItem (hsec item (by simp)) h1
    have hsplit : functionsOf (item :: before) = functionsOf [item] ++ functionsOf before := by
      rw [← singleton_append, functionsOf, filterMap_append]
      rfl
    refine ⟨bytes, hbytes, ?_⟩
    rw [← hfs, hsplit, length_append, ← hlen, List.getElem?_append_right (by omega)]
    simpa using hget

/-- No item of a lowered section is a section. -/
theorem ne_section_of_lowerItems : ∀ {items : List Item} {s s' : SectionState},
    lowerItems checks arch name s items = .ok s' →
    ∀ item ∈ items, ∀ nested addr is, item ≠ .section nested addr is
  | [], _, _, _ => by simp
  | x :: xs, s, s', h => by
    rw [lowerItems, foldlM_cons] at h
    obtain ⟨s1, h1, h⟩ := bind_eq_ok.1 h
    refine forall_mem_cons.2 ⟨?_, ne_section_of_lowerItems h⟩
    rintro nested addr is rfl
    simp [lowerItem, fail] at h1

/-- The function `f`, declared at `a`, is at the end of `before`, or behind a gap with no statement
that depends on its address. -/
def Placed (checks : Bool) (arch : ArchCodec) (name : Text) (sectionAddr : UInt64)
    (before : List Item) (f : FnDecl) (a : UInt64) : Prop :=
  ∀ out, lowerSectionBytes checks arch name sectionAddr before = .ok out →
    sectionAddr.toNat + out.length = a.toNat ∨
      sectionAddr.toNat + out.length < a.toNat ∧ stmtsPlaceless arch f.body

/-- A placed function lowers alike at the end of the items before it and at its address, which is
not before that end. -/
theorem Placed.same {before : List Item} {f : FnDecl} {a : UInt64} {out : Bytes}
    (hplaced : Placed checks arch name sectionAddr before f a)
    (h : lowerSectionBytes checks arch name sectionAddr before = .ok out) :
    sectionAddr.toNat + out.length ≤ a.toNat ∧
      lowerFunctionBytesAt checks arch f (some (sectionAddr.toNat + out.length)) =
        lowerFunctionBytesAt checks arch f (some a.toNat) := by
  rcases hplaced out h with heq | ⟨hlt, hfree⟩
  · rw [heq]
    exact ⟨le_rfl, rfl⟩
  · exact ⟨hlt.le, lowerFunctionBytesAt_eq_of_placeless hfree _ _⟩

/-- What a declared function adds to a section: the gap, and its bytes at the cursor. -/
theorem lowerItem_function {f : FnDecl} {a : UInt64} (ha : f.addr = some a)
    (h : lowerItem checks arch name s (.function f) = .ok s') :
    ∃ bytes, lowerFunctionBytesAt checks arch f (some s.cursor) = .ok bytes ∧
      s.cursor ≤ a.toNat ∧
      s'.out = s.out ++ replicate (a.toNat - s.cursor) 0 ++ bytes := by
  obtain ⟨bytes, hbytes, h⟩ := bind_eq_ok.1 h
  rw [ha] at h
  obtain ⟨hle, rfl⟩ := placeBytes_some_eq_ok.1 h
  exact ⟨bytes, hbytes, hle, rfl⟩

/-- In a lowered section every declared function that is placed lands where it is declared, with the
bytes that the function walker gives it. -/
theorem lowerSectionBytes_lands (checks : Bool) (arch : ArchCodec) (name : Text)
    (sectionAddr : UInt64) (items : List Item) (out : Bytes)
    (h : lowerSectionBytes checks arch name sectionAddr items = .ok out)
    (before : List Item) (f : FnDecl) (after : List Item) (a : UInt64)
    (hitems : items = before ++ .function f :: after) (ha : f.addr = some a)
    (hplaced : Placed checks arch name sectionAddr before f a) :
    LandsAt checks arch name sectionAddr items out before f a := by
  -- The state before the function, the one behind it, and the last one.
  obtain ⟨last, hlast, hout⟩ := steps₁_eq_ok.1 h
  have hsec := ne_section_of_lowerItems hlast
  rw [hitems, lowerItems, foldlM_append] at hlast
  obtain ⟨s, hs, hrest⟩ := bind_eq_ok.1 hlast
  rw [foldlM_cons] at hrest
  obtain ⟨s', hs', hrest⟩ := bind_eq_ok.1 hrest
  obtain ⟨bytes, hbytes, hle, hout'⟩ := lowerItem_function ha hs'
  have htrack := (lowerItems_keeps (tracks_start sectionAddr) hs).1
  have htrack' := lowerItem_keeps htrack hs'
  have hpre := (lowerItems_keeps htrack'.1 hrest).2
  rw [hout] at hpre
  have hboth : lowerItems checks arch name ⟨[], sectionAddr.toNat⟩
      (before ++ [.function f]) = .ok s' := by
    rw [lowerItems, foldlM_append]
    exact bind_eq_ok.2 ⟨s, hs, by simpa using hs'⟩
  -- The cursor is the end of the items before the function, where it has the bytes of its address.
  obtain ⟨hend, hsame⟩ := hplaced.same (bind_eq_ok.2 ⟨s, hs, rfl⟩)
  have hcursor : s.cursor = sectionAddr.toNat + s.out.length :=
    Eq.trans htrack (saturatingAdd_of_lt (hend.trans_lt a.toNat_lt))
  rw [← hcursor, hbytes] at hsame
  have hdrop : s'.out.drop (a.toNat - sectionAddr.toNat) = bytes := by
    rw [hout']
    refine drop_left' ?_
    simp only [length_append, length_replicate]
    omega
  refine ⟨bytes, s', hsame.symm, hboth, hpre, hdrop, fun fs hfs => ?_⟩
  rw [hitems] at hfs
  obtain ⟨bytes', hb, hget⟩ := walkFunctions_getElem? ha
    (fun item hitem => hsec item (by simp [hitems, hitem])) hfs
  rw [← hsame, Except.ok.injEq] at hb
  rw [hget, hb]

/-- A function at `addr` that jumps to `0x1010`. -/
def jumpTo1010 (addr : UInt64) : FnDecl :=
  ⟨some addr, "f".toList, [], none, [], [.goto 0x1010 false]⟩

/-- A function at `0x1010` with an instruction that is not pinned. -/
def nopAt1010 : FnDecl := ⟨some 0x1010, "g".toList, [], none, [],
  [.asm "nop".toList [], .return 0 [0xc3]]⟩

/-- A function with a jump, directly behind a raw item, and one without, behind a gap of thirteen
bytes, both land. -/
theorem lowerSectionBytes_lands_gap :
    lowerSectionBytes true bareX86 ".text".toList 0x1000
        [.raw 0x1000 [0x90], .function (jumpTo1010 0x1001), .function nopAt1010] =
      .ok ([0x90, 0xeb, 0x0d] ++ replicate 13 0 ++ [0x90, 0xc3]) ∧
    LandsAt true bareX86 ".text".toList 0x1000
      [.raw 0x1000 [0x90], .function (jumpTo1010 0x1001), .function nopAt1010]
      ([0x90, 0xeb, 0x0d] ++ replicate 13 0 ++ [0x90, 0xc3]) [.raw 0x1000 [0x90]]
      (jumpTo1010 0x1001) 0x1001 ∧
    LandsAt true bareX86 ".text".toList 0x1000
      [.raw 0x1000 [0x90], .function (jumpTo1010 0x1001), .function nopAt1010]
      ([0x90, 0xeb, 0x0d] ++ replicate 13 0 ++ [0x90, 0xc3])
      [.raw 0x1000 [0x90], .function (jumpTo1010 0x1001)] nopAt1010 0x1010 := by
  refine ⟨rfl, lowerSectionBytes_lands true bareX86 ".text".toList 0x1000 _ _ rfl _ _
    [.function nopAt1010] _ rfl rfl ?_, lowerSectionBytes_lands true bareX86 ".text".toList 0x1000
    _ _ rfl _ _ [] _ rfl rfl ?_⟩
  · intro out hout
    obtain rfl : [0x90] = out := Except.ok.inj hout
    exact .inl rfl
  · intro out hout
    obtain rfl : [0x90, 0xeb, 0x0d] = out := Except.ok.inj hout
    exact .inr ⟨by decide, .inr fun _ _ => rfl, trivial, trivial⟩

/-- Behind a gap of sixteen bytes the jump of a function to its own start is encoded for the start
of the gap, and jumps sixteen bytes too far; the function walker encodes it for the function. -/
theorem lowerSectionBytes_gap_misses :
    lowerSectionBytes true bareX86 ".text".toList 0x1000 [.function (jumpTo1010 0x1010)] =
        .ok (List.replicate 16 0 ++ [0xeb, 0x0e]) ∧
      lowerFunctions true bareX86 ⟨⟨[]⟩, [.section ".text".toList 0x1000
        [.function (jumpTo1010 0x1010)]]⟩ = .ok [⟨"f".toList, some 0x1010, [0xeb, 0xfe]⟩] ∧
      ¬LandsAt true bareX86 ".text".toList 0x1000 [.function (jumpTo1010 0x1010)]
        (List.replicate 16 0 ++ [0xeb, 0x0e]) [] (jumpTo1010 0x1010) 0x1010 := by
  refine ⟨rfl, rfl, ?_⟩
  rintro ⟨bytes, s, hbytes, hs, -, hdrop, -⟩
  obtain rfl : [0xeb, 0xfe] = bytes := Except.ok.inj hbytes
  obtain rfl : (⟨List.replicate 16 0 ++ [0xeb, 0x0e], 0x1012⟩ : SectionState) = s :=
    Except.ok.inj hs
  revert hdrop
  decide

end Univdreams.Lower
