import Univdreams.Decompile.InPlace

/-!
# Dropping bytes from whole sections

The walk over statements is lifted to sections: the cursor of each pass moves from item to item,
beside the cursor of the lowering. `dropBytes_lowers` says that dropping bytes keeps the bytes of
all sections in which every statement is settled.
-/

namespace Univdreams.Decompile

open Ast Arch Lower Run List Option X86 DropTarget

variable {cursor next : ℕ} {body : List Stmt} {bytes : Bytes} {f : FnDecl}
  {lowered : List LoweredSection} {s t : SectionState} {base : Option ℕ}

/-! ## The pass over the instructions of x86 -/

section AsmSettled

variable (checks : Bool) (p : X86.Platform) (bitness : X86.Bitness) (fnName : Text)

mutual

/-- Every instruction with the bytes of its text at the cursor of the pass is visited where it
lands, or its address does not matter. -/
def asmStmtSettled (base ip : ℕ) (out : Bytes) : Stmt → Prop
  | .asm text bytes => X86.assembleIntel p bitness text ip ≠ .error .panic ∧
    (bytes ≠ [] → X86.assembleIntel p bitness text ip = .ok bytes →
      ip = saturatingAdd base out.length ∨
        ∀ x y, X86.assembleIntel p bitness text x = X86.assembleIntel p bitness text y)
  | .ifBranch _ cond_bytes attrs pre_body then_body none =>
    asmStmtsSettled base ip 0 (out ++ (headBytesAttr attrs).getD []) pre_body ∧
    ∀ mid, lowerStmtsFrom checks (X86.x86Codec p bitness) fnName (some base) 0
        (out ++ (headBytesAttr attrs).getD []) pre_body = .ok mid →
      asmStmtsSettled base (saturatingAdd (asmIpBehindAll p bitness ip pre_body)
        cond_bytes.length) 0
        (mid ++ cond_bytes) then_body
  | .ifBranch _ cond_bytes attrs pre_body then_body (some else_body) =>
    asmStmtsSettled base ip 0 (out ++ (headBytesAttr attrs).getD []) pre_body ∧
    ∀ mid, lowerStmtsFrom checks (X86.x86Codec p bitness) fnName (some base) 0
        (out ++ (headBytesAttr attrs).getD []) pre_body = .ok mid →
      asmStmtsSettled base (saturatingAdd (asmIpBehindAll p bitness ip pre_body)
        cond_bytes.length) 0
        (mid ++ cond_bytes) then_body ∧
      ∀ mid', lowerStmtsFrom checks (X86.x86Codec p bitness) fnName (some base) 0
          (mid ++ cond_bytes) then_body = .ok mid' →
        asmStmtsSettled base (asmIpBehindAll p bitness
          (saturatingAdd (asmIpBehindAll p bitness ip pre_body) cond_bytes.length) then_body) 0 mid'
          else_body
  | .loop _ entry_jmp_bytes _ body =>
    asmStmtsSettled base (saturatingAdd ip (entry_jmp_bytes.getD []).length) 0
      (out ++ entry_jmp_bytes.getD []) body
  | _ => True

/-- `asmStmtSettled` of each statement, behind those before it. -/
def asmStmtsSettled (base ip i : ℕ) (out : Bytes) : List Stmt → Prop
  | [] => True
  | s :: ss => asmStmtSettled base ip out s ∧
    ∀ mid, lowerStmt checks (X86.x86Codec p bitness) fnName (some base) i out s = .ok mid →
      asmStmtsSettled base (asmIpBehind p bitness ip s) (i + 1) mid ss

end

end AsmSettled

section Asm

variable {checks : Bool} {p : X86.Platform} {bitness : X86.Bitness} {fnName : Text}

/-- With the x86 codec, an instruction is what the assembler makes of its text. -/
theorem assembleText_x86 {text : Text} {ip : ℕ} {e : Bytes} :
    assembleText (x86Codec p bitness) text ip = .ok e ↔
      assembleIntel p bitness text ip = .ok e := by
  simp only [assembleText, x86Codec]
  match assembleIntel p bitness text ip with
  | .ok encoded => simp [assembled]
  | .error .panic => simp [assembled]
  | .error (.err cause) => simp [assembled, fail]

/-- The pass clears the bytes that the assembler makes of a text, and leaves the others. -/
theorem asmLeft_of_ne_panic {ip : ℕ} {text : Text}
    (h : assembleIntel p bitness text ip ≠ .error .panic) :
    asmLeft p bitness ip text bytes = some bytes ∨
      asmLeft p bitness ip text bytes = some [] ∧ assembleIntel p bitness text ip = .ok bytes := by
  unfold asmLeft
  match assembleIntel p bitness text ip, h with
  | .ok encoded, _ =>
    by_cases heq : encoded = bytes
    · exact .inr ⟨congrArg some (if_pos heq), by rw [heq]⟩
    · exact .inl (congrArg some (if_neg heq))
  | .error (.err cause), _ => exact .inl rfl

mutual

/-- What the first pass leaves of a statement that is settled lowers to the same bytes. -/
theorem lowers_of_asmStmtSettled {base ip i : ℕ} {out o : Bytes} {s : Stmt}
    (h : asmStmtSettled checks p bitness fnName base ip out s)
    (ho : lowerStmt checks (x86Codec p bitness) fnName (some base) i out s = .ok o) :
    ∃ t, asmDropStmt p bitness ip s = some t ∧
      lowerStmt checks (x86Codec p bitness) fnName (some base) i out t = .ok o := by
  cases s with
  | asm text bytes =>
    obtain ⟨hpanic, hfound⟩ := h
    by_cases hnil : bytes = []
    · -- Nothing is left of nothing.
      subst hnil
      rcases asmLeft_of_ne_panic hpanic with hleft | ⟨hleft, -⟩ <;>
        exact ⟨.asm text [], map_eq_some_iff.2 ⟨[], hleft, rfl⟩, ho⟩
    rcases asmLeft_of_ne_panic hpanic with hleft | ⟨hleft, hb⟩
    · exact ⟨.asm text bytes, map_eq_some_iff.2 ⟨bytes, hleft, rfl⟩, ho⟩
    refine ⟨.asm text [], map_eq_some_iff.2 ⟨[], hleft, rfl⟩, ?_⟩
    have hland : assembleIntel p bitness text (saturatingAdd base out.length) = .ok bytes := by
      rcases hfound hnil hb with rfl | hfree
      · exact hb
      · rw [hfree _ ip, hb]
    rw [← ho]
    simp only [lowerStmt, pinnedOr_of_ne_nil hnil]
    simp only [pinnedOr, if_true, ipAt, Option.elim_some, assembleText_x86.2 hland, liftArch]
  | ifBranch cond_text cond_bytes attrs pre_body then_body else_body =>
    cases else_body with
    | none =>
      obtain ⟨hpre, hthen⟩ := h
      obtain ⟨mid, mid', hmid, hmid', ho⟩ := bind₂_eq_ok.1 ho
      obtain ⟨pb, hpb, hpb'⟩ := lowers_of_asmStmtsSettled hpre hmid
      obtain ⟨tb, htb, htb'⟩ := lowers_of_asmStmtsSettled (hthen mid hmid) hmid'
      exact ⟨.ifBranch cond_text cond_bytes attrs pb tb none,
        steps₂_eq_some.2 ⟨_, _, hpb, htb, rfl⟩, bind₂_eq_ok.2 ⟨mid, mid', hpb', htb', ho⟩⟩
    | some else_body =>
      obtain ⟨hpre, hrest⟩ := h
      obtain ⟨mid, mid', hmid, hmid', ho⟩ := bind₂_eq_ok.1 ho
      obtain ⟨hthen, helse⟩ := hrest mid hmid
      obtain ⟨pb, hpb, hpb'⟩ := lowers_of_asmStmtsSettled hpre hmid
      obtain ⟨tb, htb, htb'⟩ := lowers_of_asmStmtsSettled hthen hmid'
      obtain ⟨eb, heb, heb'⟩ := lowers_of_asmStmtsSettled (helse mid' hmid') ho
      exact ⟨.ifBranch cond_text cond_bytes attrs pb tb (some eb),
        steps₃_eq_some.2 ⟨_, _, _, hpb, htb, heb, rfl⟩, bind₂_eq_ok.2 ⟨mid, mid', hpb', htb', heb'⟩⟩
  | loop cond_text entry_jmp_bytes tail_bytes body =>
    obtain ⟨mid, hmid, ho⟩ := bind_eq_ok.1 ho
    obtain ⟨bb, hbb, hbb'⟩ := lowers_of_asmStmtsSettled h hmid
    exact ⟨.loop cond_text entry_jmp_bytes tail_bytes bb, steps₁_eq_some.2 ⟨_, hbb, rfl⟩,
      bind_eq_ok.2 ⟨mid, hbb', ho⟩⟩
  | _ => exact ⟨_, rfl, ho⟩

/-- What the first pass leaves of statements that are settled lowers to the same bytes. -/
theorem lowers_of_asmStmtsSettled {base ip i : ℕ} {out o : Bytes} : ∀ {ss : List Stmt},
    asmStmtsSettled checks p bitness fnName base ip i out ss →
    lowerStmtsFrom checks (x86Codec p bitness) fnName (some base) i out ss = .ok o →
    ∃ ts, asmDropStmts p bitness ip ss = some ts ∧
      lowerStmtsFrom checks (x86Codec p bitness) fnName (some base) i out ts = .ok o
  | [], _, ho => ⟨[], rfl, ho⟩
  | s :: ss, ⟨hs, hss⟩, ho => by
    obtain ⟨mid, hmid, ho⟩ := bind_eq_ok.1 ho
    obtain ⟨t, ht, ht'⟩ := lowers_of_asmStmtSettled hs hmid
    obtain ⟨ts, hts, hts'⟩ := lowers_of_asmStmtsSettled (hss mid hmid) ho
    exact ⟨t :: ts, steps₂_eq_some.2 ⟨_, _, ht, hts, rfl⟩, bind_eq_ok.2 ⟨mid, ht', hts'⟩⟩

end

end Asm

/-! ## Functions -/

section Functions

variable {checks : Bool} {arch : ArchCodec}

/-- A function is lowered between the code that is generated around its body. -/
theorem lowerFunctionBytesAt_eq_ok {b : Bytes} :
    lowerFunctionBytesAt checks arch f base = .ok b ↔ ∃ head out tail,
      prologueOf checks f = .ok head ∧
      lowerStmtsFrom checks arch f.name base 0 head f.body = .ok out ∧
      epilogueOf checks f = .ok tail ∧ out ++ tail = b :=
  Run.steps₃_eq_ok

/-- A function lowers to the same bytes when what is left of its body does. -/
theorem lowerFunctionBytesAt_of_body {b : Bytes} (hframe : SameFrame f.body body)
    (hbody : ∀ head out, prologueOf checks f = .ok head →
      lowerStmtsFrom checks arch f.name base 0 head f.body = .ok out →
      lowerStmtsFrom checks arch f.name base 0 head body = .ok out)
    (h : lowerFunctionBytesAt checks arch f base = .ok b) :
    lowerFunctionBytesAt checks arch { f with body := body } base = .ok b := by
  obtain ⟨hpro, hepi, hproBytes, hepiBytes⟩ := hframe.frame_eq checks
  obtain ⟨head, out, tail, hhead, hout, htail, rfl⟩ := lowerFunctionBytesAt_eq_ok.1 h
  refine lowerFunctionBytesAt_eq_ok.2 ⟨head, out, tail, ?_, hbody head out hhead hout, ?_, rfl⟩
  · rw [← hhead, prologueOf, prologueOf, hpro, hproBytes]
  · rw [← htail, epilogueOf, epilogueOf, hepi, hepiBytes]

end Functions

/-! ## Items and the second pass -/

section Items

variable {checks : Bool} {arch : ArchCodec} {name : Text} {item : Item}

variable (checks arch)

/-- The cursor of the second pass behind an item of a section. -/
def cursorBehindItem (cursor : ℕ) : Item → Option ℕ
  | .function f => do
    let size ← stmtsTotalBytesAt checks (functionStart cursor f) f.body
    return saturatingAdd (functionStart cursor f) size
  | .raw addr bytes => some (saturatingAdd addr.toNat bytes.length)
  | _ => some cursor

/-- The statements of an item are settled for the second pass. -/
def itemSettled (cursor : ℕ) (s : SectionState) : Item → Prop
  | .function f => ∀ head, prologueOf checks f = .ok head →
    stmtsSettled checks arch f.name s.cursor s.cursor (functionStart cursor f) 0 head f.body
  | _ => True

/-- Each item is settled for the second pass, behind those before it, and its size estimated without
a panic. -/
def itemsSettled (name : Text) (cursor : ℕ) (s : SectionState) : List Item → Prop
  | [] => True
  | item :: items => itemSettled checks arch cursor s item ∧
    ∃ next, cursorBehindItem checks cursor item = some next ∧
      ∀ t, lowerItem checks arch name s item = .ok t → itemsSettled name next t items

variable {checks arch}

/-- What the second pass leaves of an item that is settled lowers to the same state. -/
theorem lowers_of_itemSettled (harch : RelativeJumps arch)
    (hset : itemSettled checks arch cursor s item)
    (hnext : cursorBehindItem checks cursor item = some next)
    (h : lowerItem checks arch name s item = .ok t) :
    ∃ item', dropSectionItem checks arch cursor item = some (item', next) ∧
      lowerItem checks arch name s item' = .ok t := by
  cases item with
  | function f =>
    obtain ⟨size, hsize, hnext⟩ := Option.bind_eq_some_iff.1 hnext
    obtain ⟨b, hb, hplace⟩ := bind_eq_ok.1 h
    obtain ⟨head, out, tail, hhead, hout, -, -⟩ := lowerFunctionBytesAt_eq_ok.1 hb
    obtain ⟨body, hbody, hout'⟩ := lowers_of_stmtsSettled harch (hset head hhead) hout
    refine ⟨.function { f with body := body }, ?_, bind_eq_ok.2 ⟨b, ?_, hplace⟩⟩
    · simp only [dropSectionItem, hsize, hbody, Option.bind_eq_bind, Option.bind_some,
        Option.pure_def, ← Option.some.inj hnext]
    refine lowerFunctionBytesAt_of_body (sameFrame_dropStmts hbody) ?_ hb
    intro head1 out1 hhead1 hout1
    obtain rfl : head = head1 := Except.ok.inj (hhead.symm.trans hhead1)
    rw [hout', ← hout1, hout]
  | «section» nested addr items => cases h
  | _ => exact ⟨_, congrArg (fun n => some (_, n)) (Option.some.inj hnext), h⟩

/-- What the second pass leaves of items that are settled lowers to the same state. -/
theorem lowers_of_itemsSettled (harch : RelativeJumps arch) :
    ∀ {items : List Item} {cursor : ℕ} {s t : SectionState},
    itemsSettled checks arch name cursor s items →
    lowerItems checks arch name s items = .ok t →
    ∃ items', dropSectionItems checks arch cursor items = some items' ∧
      lowerItems checks arch name s items' = .ok t
  | [], _, _, _, _, h => ⟨[], rfl, h⟩
  | item :: items, cursor, s, t, ⟨hset, next, hnext, hrest⟩, h => by
    obtain ⟨mid, hmid, h⟩ := bind_eq_ok.1 h
    obtain ⟨item', hitem', hmid'⟩ := lowers_of_itemSettled harch hset hnext hmid
    obtain ⟨items', hitems', h'⟩ := lowers_of_itemsSettled harch (hrest mid hmid) h
    exact ⟨item' :: items', steps₂_eq_some.2 ⟨_, _, hitem', hitems', rfl⟩,
      bind_eq_ok.2 ⟨mid, hmid', h'⟩⟩

end Items

/-! ## Items and the first pass -/

section AsmItems

variable {checks : Bool} {p : X86.Platform} {bitness : X86.Bitness} {name : Text} {item : Item}

variable (checks p bitness)

/-- The cursor of the first pass behind an item of a section. -/
def asmCursorBehindItem (cursor : ℕ) : Item → Option ℕ
  | .function f => do
    let ip ← asmStart checks cursor f
    let tail ← autoEpilogueSize checks f
    return saturatingAdd (asmIpBehindAll p bitness ip f.body) tail
  | .raw addr bytes => some (saturatingAdd addr.toNat bytes.length)
  | .strings addr strings => some (saturatingAdd addr.toNat (stringsByteSize strings))
  | .notes addr _ => some addr.toNat
  | .jumpTable addr _ entries => some (saturatingAdd addr.toNat (entries.length * 4))
  | _ => some cursor

/-- The instructions of an item are settled for the first pass. -/
def asmItemSettled (cursor : ℕ) (s : SectionState) : Item → Prop
  | .function f => ∀ ip head, asmStart checks cursor f = some ip →
    prologueOf checks f = .ok head →
    asmStmtsSettled checks p bitness f.name s.cursor ip 0 head f.body
  | _ => True

/-- Each item is settled for the first pass, behind those before it, and the code around it
generated without a panic. -/
def asmItemsSettled (name : Text) (cursor : ℕ) (s : SectionState) : List Item → Prop
  | [] => True
  | item :: items => asmItemSettled checks p bitness cursor s item ∧
    ∃ next, asmCursorBehindItem checks p bitness cursor item = some next ∧
      ∀ t, lowerItem checks (X86.x86Codec p bitness) name s item = .ok t →
        asmItemsSettled name next t items

variable {checks p bitness}

/-- What the first pass leaves of an item that is settled lowers to the same state. -/
theorem lowers_of_asmItemSettled
    (hset : asmItemSettled checks p bitness cursor s item)
    (hnext : asmCursorBehindItem checks p bitness cursor item = some next)
    (h : lowerItem checks (x86Codec p bitness) name s item = .ok t) :
    ∃ item', asmDropItem p bitness checks cursor item = some (item', next) ∧
      lowerItem checks (x86Codec p bitness) name s item' = .ok t := by
  cases item with
  | function f =>
    obtain ⟨ip, tail, hip, htail, rfl⟩ := steps₂_eq_some.1 hnext
    obtain ⟨b, hb, hplace⟩ := bind_eq_ok.1 h
    obtain ⟨head, out, -, hhead, hout, -, -⟩ := lowerFunctionBytesAt_eq_ok.1 hb
    obtain ⟨body, hbody, hout'⟩ := lowers_of_asmStmtsSettled (hset ip head hip hhead) hout
    have hframe := sameFrame_asmDropStmts hbody
    -- The size that is expected of the epilogue does not depend on pinned bytes.
    have htail' : autoEpilogueSize checks { f with body := body } = some tail := by
      rw [← htail, autoEpilogueSize, autoEpilogueSize, (hframe.frame_eq checks).2.2.2]
      rfl
    refine ⟨.function { f with body := body }, ?_, bind_eq_ok.2 ⟨b, ?_, hplace⟩⟩
    · exact steps₃_eq_some.2 ⟨ip, body, tail, hip, hbody, htail', rfl⟩
    refine lowerFunctionBytesAt_of_body hframe ?_ hb
    intro head1 out1 hhead1 hout1
    obtain rfl : head = head1 := Except.ok.inj (hhead.symm.trans hhead1)
    rw [hout', ← hout1, hout]
  | «section» nested addr items => cases h
  | _ => exact ⟨_, congrArg (fun n => some (_, n)) (Option.some.inj hnext), h⟩

/-- What the first pass leaves of items that are settled lowers to the same state. -/
theorem lowers_of_asmItemsSettled : ∀ {items : List Item} {cursor : ℕ} {s t : SectionState},
    asmItemsSettled checks p bitness name cursor s items →
    lowerItems checks (x86Codec p bitness) name s items = .ok t →
    ∃ items', asmDropItems p bitness checks cursor items = some items' ∧
      lowerItems checks (x86Codec p bitness) name s items' = .ok t
  | [], _, _, _, _, h => ⟨[], rfl, h⟩
  | item :: items, cursor, s, t, ⟨hset, next, hnext, hrest⟩, h => by
    obtain ⟨mid, hmid, h⟩ := bind_eq_ok.1 h
    obtain ⟨item', hitem', hmid'⟩ := lowers_of_asmItemSettled hset hnext hmid
    obtain ⟨items', hitems', h'⟩ := lowers_of_asmItemsSettled (hrest mid hmid) h
    exact ⟨item' :: items', steps₂_eq_some.2 ⟨_, _, hitem', hitems', rfl⟩,
      bind_eq_ok.2 ⟨mid, hmid', h'⟩⟩

end AsmItems

/-! ## Sections -/

/-- A section of a file. -/
structure SectionDecl where
  name : Text
  addr : UInt64
  items : List Item

variable {sections : List SectionDecl}
variable (checks : Bool) (arch : ArchCodec) (s : SectionDecl)

/-- The section as an item. -/
def SectionDecl.item : Item := .section s.name s.addr s.items

/-- The first pass on a section. -/
def SectionDecl.asmDrop (p : X86.Platform) (bitness : X86.Bitness) (s : SectionDecl) :
    Option SectionDecl := do
  let items ← asmDropItems p bitness checks s.addr.toNat s.items
  return { s with items := items }

/-- The second pass on a section. -/
def SectionDecl.drop : Option SectionDecl := do
  let items ← dropSectionItems checks arch s.addr.toNat s.items
  return { s with items := items }

/-- The bytes of a section. -/
def SectionDecl.lower : Run LowerError Bytes :=
  lowerSectionBytes checks arch s.name s.addr s.items

/-- The statements of a section are settled for the first pass. -/
def SectionDecl.AsmSettled (p : X86.Platform) (bitness : X86.Bitness) (s : SectionDecl) : Prop :=
  asmItemsSettled checks p bitness s.name s.addr.toNat ⟨[], s.addr.toNat⟩ s.items

/-- The statements of a section are settled for the second pass. -/
def SectionDecl.Settled : Prop :=
  itemsSettled checks arch s.name s.addr.toNat ⟨[], s.addr.toNat⟩ s.items

open SectionDecl

section Sections

variable {checks : Bool} {arch : ArchCodec}

/-- The first pass goes from section to section. -/
theorem asmDropItems_sections (p : X86.Platform) (bitness : X86.Bitness) :
    ∀ (sections : List SectionDecl) (cursor : ℕ),
    asmDropItems p bitness checks cursor (sections.map item) =
      (sections.mapM (asmDrop checks p bitness)).map (List.map item)
  | [], _ => rfl
  | s :: sections, cursor => by
    rw [map_cons, asmDropItems, mapM_cons]
    simp only [item, asmDropItem, asmDrop]
    cases asmDropItems p bitness checks s.addr.toNat s.items with
    | none => rfl
    | some items =>
      simp only [Option.bind_eq_bind, Option.bind_some, Option.pure_def]
      rw [asmDropItems_sections p bitness sections cursor]
      cases sections.mapM (asmDrop checks p bitness) with
      | none => rfl
      | some rest => rfl

/-- The second pass goes from section to section. -/
theorem dropRegenerableBytes_sections : ∀ sections : List SectionDecl,
    dropRegenerableBytes checks arch (sections.map item) =
      (sections.mapM (SectionDecl.drop checks arch)).map (List.map item)
  | [] => rfl
  | s :: sections => by
    have ih := dropRegenerableBytes_sections sections
    unfold dropRegenerableBytes at ih ⊢
    rw [map_cons, mapM_cons, mapM_cons, ih]
    simp only [item, dropTopItem, SectionDecl.drop]
    cases dropSectionItems checks arch s.addr.toNat s.items with
    | none => rfl
    | some items =>
      cases sections.mapM (SectionDecl.drop checks arch) with
      | none => rfl
      | some rest => rfl

/-- Sections are lowered one by one. -/
theorem lowerSections_cons {s : SectionDecl} :
    lowerSections checks arch ((s :: sections).map item) = .ok lowered ↔
      ∃ bytes rest, s.lower checks arch = .ok bytes ∧
        lowerSections checks arch (sections.map item) = .ok rest ∧
        ⟨s.name, s.addr, bytes⟩ :: rest = lowered :=
  steps₂_eq_ok

/-- A pass over sections that keeps their names and addresses. -/
structure KeepsPlace (pass : SectionDecl → Option SectionDecl) : Prop where
  name_eq : ∀ {s s'}, pass s = some s' → s'.name = s.name
  addr_eq : ∀ {s s'}, pass s = some s' → s'.addr = s.addr

/-- When the pass keeps the bytes of each section, it keeps those of all. -/
theorem lowerSections_of_pass {pass : SectionDecl → Option SectionDecl} (hpass : KeepsPlace pass) :
    ∀ {sections : List SectionDecl} {lowered : List LoweredSection},
    (∀ s ∈ sections, ∀ bytes, s.lower checks arch = .ok bytes →
      ∃ s', pass s = some s' ∧ s'.lower checks arch = .ok bytes) →
    lowerSections checks arch (sections.map item) = .ok lowered →
    ∃ sections', sections.mapM pass = some sections' ∧
      lowerSections checks arch (sections'.map item) = .ok lowered
  | [], _, _, h => ⟨[], rfl, h⟩
  | s :: sections, _, hs, h => by
    obtain ⟨hs, hss⟩ := forall_mem_cons.1 hs
    obtain ⟨bytes, rest, hbytes, hrest, rfl⟩ := lowerSections_cons.1 h
    obtain ⟨s', hs', hbytes'⟩ := hs bytes hbytes
    obtain ⟨sections', hsections', hrest'⟩ := lowerSections_of_pass hpass hss hrest
    refine ⟨s' :: sections', ?_, lowerSections_cons.2 ⟨bytes, rest, hbytes', hrest', ?_⟩⟩
    · rw [mapM_cons]
      exact steps₂_eq_some.2 ⟨s', sections', hs', hsections', rfl⟩
    · rw [hpass.name_eq hs', hpass.addr_eq hs']

/-- The first pass keeps the place of a section. -/
theorem keepsPlace_asmDrop (p : X86.Platform) (bitness : X86.Bitness) :
    KeepsPlace (asmDrop checks p bitness) := by
  constructor <;>
  · intro s s' h
    obtain ⟨items, -, h⟩ := steps₁_eq_some.1 h
    rw [← h]

/-- The second pass keeps the place of a section. -/
theorem keepsPlace_drop : KeepsPlace (SectionDecl.drop checks arch) := by
  constructor <;>
  · intro s s' h
    obtain ⟨items, -, h⟩ := steps₁_eq_some.1 h
    rw [← h]

/-- The second pass keeps the bytes of a section that is settled for it. -/
theorem SectionDecl.Settled.lowers (harch : RelativeJumps arch) {s : SectionDecl}
    (hset : s.Settled checks arch) (h : s.lower checks arch = .ok bytes) :
    ∃ s', s.drop checks arch = some s' ∧ s'.lower checks arch = .ok bytes := by
  obtain ⟨t, ht, h⟩ := bind_eq_ok.1 h
  obtain ⟨items, hitems, ht'⟩ := lowers_of_itemsSettled harch hset ht
  exact ⟨{ s with items := items }, steps₁_eq_some.2 ⟨items, hitems, rfl⟩, bind_eq_ok.2 ⟨t, ht', h⟩⟩

/-- The first pass keeps the bytes of a section that is settled for it. -/
theorem SectionDecl.AsmSettled.lowers {p : X86.Platform} {bitness : X86.Bitness} {s : SectionDecl}
    (hset : s.AsmSettled checks p bitness) (h : s.lower checks (x86Codec p bitness) = .ok bytes) :
    ∃ s', s.asmDrop checks p bitness = some s' ∧
      s'.lower checks (x86Codec p bitness) = .ok bytes := by
  obtain ⟨t, ht, h⟩ := bind_eq_ok.1 h
  obtain ⟨items, hitems, ht'⟩ := lowers_of_asmItemsSettled hset ht
  exact ⟨{ s with items := items }, steps₁_eq_some.2 ⟨items, hitems, rfl⟩, bind_eq_ok.2 ⟨t, ht', h⟩⟩

end Sections

/-! ## The passes of a backend -/

/-- Every statement is settled for each pass of the backend, in the sections that the pass is
given. -/
def DropTarget.Settled (checks : Bool) (target : DropTarget) (sections : List SectionDecl) : Prop :=
  match target with
  | .x86 p bitness => (∀ s ∈ sections, s.AsmSettled checks p bitness) ∧
    ∀ sections₁, sections.mapM (SectionDecl.asmDrop checks p bitness) = some sections₁ →
      ∀ s ∈ sections₁, s.Settled checks (X86.x86Codec p bitness)
  | .bpf variant => ∀ s ∈ sections, s.Settled checks (Bpf.bpfCodec checks variant)

/-- Dropping bytes and lowering again gives the bytes of `lowered`. -/
def DropTarget.Keeps (target : DropTarget) (sections : List SectionDecl)
    (lowered : List LoweredSection) : Prop :=
  ∃ items, target.dropBytes checks (sections.map SectionDecl.item) = some items ∧
    lowerSections checks (target.codec checks) items = .ok lowered

/-- **Dropping bytes.** Of sections that lower, the passes of a backend keep the bytes when every
statement is settled. -/
theorem dropBytes_lowers (target : DropTarget) (sections : List SectionDecl)
    (lowered : List LoweredSection)
    (h : lowerSections checks (target.codec checks) (sections.map SectionDecl.item) = .ok lowered)
    (hset : target.Settled checks sections) : target.Keeps checks sections lowered := by
  cases target with
  | bpf variant =>
    obtain ⟨sections', hpass, hlower⟩ := lowerSections_of_pass keepsPlace_drop
      (fun s hs bytes => (hset s hs).lowers (relativeJumps_bpf checks variant)) h
    refine ⟨sections'.map item, ?_, hlower⟩
    rw [dropBytes, dropRegenerableBytes_sections, hpass, map_some]
  | x86 p bitness =>
    obtain ⟨hasm, hcodec⟩ := hset
    obtain ⟨sections₁, hpass₁, hlower₁⟩ := lowerSections_of_pass (keepsPlace_asmDrop p bitness)
      (fun s hs bytes => (hasm s hs).lowers) h
    obtain ⟨sections₂, hpass₂, hlower₂⟩ := lowerSections_of_pass keepsPlace_drop
      (fun s hs bytes => (hcodec sections₁ hpass₁ s hs).lowers (relativeJumps_x86 p bitness))
        hlower₁
    refine ⟨sections₂.map item, ?_, hlower₂⟩
    simp only [dropBytes, dropRegenerableAsmBytes, asmDropItems_sections, hpass₁, map_some,
      bind_eq_bind, bind_some, dropRegenerableBytes_sections, hpass₂]

/-- A BPF function behind eight bytes of data: two branches, the second one back to its start, a
call of the function at `0x2000` and a return. -/
def branching : SectionDecl where
  name := ".text".toList
  addr := 0x1000
  items := [.raw 0x1000 [0, 0, 0, 0, 0, 0, 0, 0], .function ⟨none, "f".toList, [], none, [],
    [.ifBlock "r1 == 0".toList [0x55, 0x01, 0x02, 0, 0, 0, 0, 0]
        [.asm "mov64 r0, 1".toList [0xb7, 0, 0, 0, 1, 0, 0, 0]]
        [0x05, 0, 0x01, 0, 0, 0, 0, 0]
        [.asm "ja label_1008".toList [0x05, 0, 0xfc, 0xff, 0, 0, 0, 0]],
      .call "g".toList [] [0x85, 0x10, 0, 0, 0xfa, 0x01, 0, 0] (some 0x2000),
      .return 0 [0x95, 0, 0, 0, 0, 0, 0, 0]]⟩]

/-- What the section lowers to. -/
def branchingLowered : List LoweredSection :=
  [⟨".text".toList, 0x1000, [0, 0, 0, 0, 0, 0, 0, 0, 0x55, 0x01, 0x02, 0, 0, 0, 0, 0,
    0xb7, 0, 0, 0, 1, 0, 0, 0, 0x05, 0, 0x01, 0, 0, 0, 0, 0, 0x05, 0, 0xfc, 0xff, 0, 0, 0, 0,
    0x85, 0x10, 0, 0, 0xfa, 0x01, 0, 0, 0x95, 0, 0, 0, 0, 0, 0, 0]⟩]

/-- The cursor of the pass is where each of its statements lands. -/
theorem branching_settled : (DropTarget.bpf .sbfv1).Settled true [branching] := by
  intro s hs
  obtain rfl := List.mem_singleton.1 hs
  refine ⟨trivial, _, rfl, fun t ht => ?_⟩
  obtain rfl := Except.ok.inj ht
  refine ⟨fun head hhead => ?_, _, rfl, fun _ _ => trivial⟩
  obtain rfl : [] = head := Except.ok.inj hhead
  refine ⟨⟨.inl rfl, ⟨⟨.inl rfl, fun _ => ⟨nofun, .inl rfl, fun _ =>
    ⟨fun e he => (Except.ok.inj he).symm, .inl rfl⟩⟩⟩, fun _ _ => trivial⟩, ?_⟩, ?_⟩
  · intro thenBuf elseBuf hthen helse
    obtain rfl : [0xb7, 0, 0, 0, 1, 0, 0, 0] = thenBuf := Except.ok.inj hthen
    obtain rfl : [0x05, 0, 0xfc, 0xff, 0, 0, 0, 0] = elseBuf := Except.ok.inj helse
    have hskip : skipEncoded true (Bpf.bpfCodec true .sbfv1) 0x1008 "r1 == 0".toList
      [0x55, 0x01, 0x02, 0, 0, 0, 0, 0] [.asm "mov64 r0, 1".toList [0xb7, 0, 0, 0, 1, 0, 0, 0]] 8 =
        some (.ok [0x55, 0x01, 0x02, 0, 0, 0, 0, 0]) := by decide +kernel
    have htail : thenTailEncoded true (Bpf.bpfCodec true .sbfv1) 0x1018
      [.asm "ja label_1008".toList [0x05, 0, 0xfc, 0xff, 0, 0, 0, 0]] =
        some (.ok [0x05, 0, 0x01, 0, 0, 0, 0, 0]) := by decide +kernel
    refine ⟨fun _ => ⟨.ok [0x55, 0x01, 0x02, 0, 0, 0, 0, 0], hskip, nofun,
        fun _ => ⟨rfl, rfl, by decide, by decide⟩⟩,
      fun _ => ⟨.ok [0x05, 0, 0x01, 0, 0, 0, 0, 0], htail, nofun,
        fun _ => ⟨by simp, rfl, by decide, by decide⟩⟩,
      ⟨.inl rfl, fun _ => ⟨nofun, .inr nofun, fun _ => ⟨nofun, .inl rfl⟩⟩⟩, fun _ _ => trivial⟩
  · intro mid hmid
    obtain rfl : [0x55, 0x01, 0x02, 0, 0, 0, 0, 0, 0xb7, 0, 0, 0, 1, 0, 0, 0, 0x05, 0, 0x01,
      0, 0, 0, 0, 0, 0x05, 0, 0xfc, 0xff, 0, 0, 0, 0] = mid := Except.ok.inj hmid
    refine ⟨⟨.inl rfl, ?_⟩, fun mid hmid => ?_⟩
    · intro target htarget _ _
      obtain rfl := Option.some.inj htarget
      have hcall : (Bpf.bpfCodec true .sbfv1).encodeCall 0x1028 0x2000 .default =
        .ok [0x85, 0x10, 0, 0, 0xfa, 0x01, 0, 0] := rfl
      exact ⟨fun h => (by cases hcall.symm.trans h), fun _ => ⟨by decide, rfl⟩⟩
    · obtain rfl := Except.ok.inj hmid
      exact ⟨fun _ => nofun, fun _ _ => trivial⟩

/-- An x86 section with a call between two instructions. -/
def calling : SectionDecl where
  name := ".text".toList
  addr := 0x1000
  items := [.function ⟨some 0x1000, "f".toList, [], none, [],
    [.asm "nop".toList [0x90], .call "g".toList [] [] (some 0x2000), .asm "ret".toList [0xc3]]⟩]

/-- What the section lowers to. -/
def callingLowered : List LoweredSection :=
  [⟨".text".toList, 0x1000, [0x90, 0xe8, 0xfa, 0x0f, 0, 0, 0xc3]⟩]

/-- The instructions that are cleared do not depend on their address. -/
theorem calling_settled : (DropTarget.x86 barePlatform .bits64).Settled true [calling] := by
  constructor
  · intro s hs
    obtain rfl := List.mem_singleton.1 hs
    refine ⟨fun ip head _ hhead => ?_, _, rfl, fun _ _ => trivial⟩
    obtain rfl : [] = head := Except.ok.inj hhead
    exact ⟨⟨nofun, fun _ _ => .inr fun _ _ => rfl⟩, fun _ _ => ⟨trivial, fun _ _ =>
      ⟨⟨nofun, fun _ _ => .inr fun _ _ => rfl⟩, fun _ _ => trivial⟩⟩⟩
  · intro sections₁ hpass s hs
    obtain rfl := Option.some.inj hpass
    obtain rfl := List.mem_singleton.1 hs
    refine ⟨fun head _ => ?_, _, rfl, fun _ _ => trivial⟩
    exact ⟨⟨.inl rfl, nofun⟩, fun _ _ => ⟨⟨.inl rfl, nofun⟩, fun _ _ => ⟨⟨.inl rfl, nofun⟩,
      fun _ _ => trivial⟩⟩⟩

/-- Every pinned byte of the BPF section is dropped and encoded again, and the x86 section keeps its
bytes as well. -/
theorem dropBytes_lowers_branching :
    (DropTarget.bpf .sbfv1).dropBytes true ([branching].map SectionDecl.item) =
      some [.section ".text".toList 0x1000
        [.raw 0x1000 [0, 0, 0, 0, 0, 0, 0, 0], .function ⟨none, "f".toList, [], none, [],
          [.ifBlock "r1 == 0".toList [] [.asm "mov64 r0, 1".toList []] []
              [.asm "ja label_1008".toList []],
            .call "g".toList [] [] (some 0x2000), .return 0 []]⟩]] ∧
      (DropTarget.bpf .sbfv1).Keeps true [branching] branchingLowered ∧
      (DropTarget.x86 barePlatform .bits64).Keeps true [calling] callingLowered :=
  ⟨rfl, dropBytes_lowers true (.bpf .sbfv1) [branching] branchingLowered rfl branching_settled,
    dropBytes_lowers true (.x86 barePlatform .bits64) [calling] callingLowered rfl calling_settled⟩

/-- A BPF function at `0x1000` that calls the function `name` at `0x2000` and returns. -/
def caller (name : String) : SectionDecl where
  name := ".text".toList
  addr := 0x1000
  items := [.function ⟨some 0x1000, "f".toList, [], none, [],
    [.call name.toList [] [0x85, 0x10, 0, 0, 0xff, 0x01, 0, 0] (some 0x2000),
      .return 0 [0x95, 0, 0, 0, 0, 0, 0, 0]]⟩]

/-- The section of `caller` lowers to the bytes that are pinned in it. -/
def callerLowered : List LoweredSection :=
  [⟨".text".toList, 0x1000, [0x85, 0x10, 0, 0, 0xff, 0x01, 0, 0, 0x95, 0, 0, 0, 0, 0, 0, 0]⟩]

/-- A call to a function whose name starts with `tail_` is cleared as a call and encoded again as a
jump. -/
theorem dropBytes_tailCall_differs :
    lowerSections true ((DropTarget.bpf .sbfv1).codec true)
      ([caller "tail_g"].map SectionDecl.item) =
        .ok callerLowered ∧
      ¬(DropTarget.bpf .sbfv1).Keeps true [caller "tail_g"] callerLowered := by
  refine ⟨rfl, ?_⟩
  rintro ⟨items, hdrop, hlower⟩
  obtain rfl := Option.some.inj hdrop
  have hjump : lowerSections true ((DropTarget.bpf .sbfv1).codec true)
      [.section ".text".toList 0x1000 [.function ⟨some 0x1000, "f".toList, [], none, [],
        [.call "tail_g".toList [] [] (some 0x2000), .return 0 []]⟩]] =
      .ok [⟨".text".toList, 0x1000, [0x05, 0, 0xff, 0x01, 0, 0, 0, 0, 0x95, 0, 0, 0, 0, 0, 0,
        0]⟩] :=
    rfl
  have heq := Except.ok.inj (hjump.symm.trans hlower)
  simp [callerLowered] at heq

end Univdreams.Decompile
