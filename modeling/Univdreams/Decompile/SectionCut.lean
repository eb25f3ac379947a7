import Univdreams.Decompile.Sections

/-!
# When a section is cut without gap or overlap

`Laid` says that items lie one behind the other from an address on and hold given bytes. Items that
are laid are lowered to these bytes, whether or not addresses of functions were dropped in between
(`lowerItems_of_laid`), since every item stands where the cursor of the lowering is.

The cut moves its cursor to the end of each function in turn and never looks back. It lays the items
of a section when the functions follow one another (`Follows`), and a cut that partitions the
section shows that they do. `buildSectionItems_lowers_iff` puts both directions together.
-/

namespace Univdreams.Decompile

open Elf Ast Arch Lower Analysis List Run Option

variable {start stop : ℕ} {item : Item} {items : List Item} {bytes : Bytes}

section Placed

variable (checks : Bool) (codec : ArchCodec)

/-! ## Items at their addresses -/

/-- The address that an item declares, and its bytes at this address. -/
def placed : Item → Option (ℕ × Bytes)
  | .raw addr bytes => some (addr.toNat, bytes)
  | .strings addr strings => some (addr.toNat, lowerStringsBytes strings)
  | .notes addr entries => some (addr.toNat, lowerNotesBytes entries)
  | .jumpTable addr dispatch entries => do
    let bytes ← (lowerJumpTableBytes addr dispatch entries).toOption
    return (addr.toNat, bytes)
  | .function f => do
    let addr ← f.addr
    let bytes ← (lowerFunctionBytesAt checks codec f (some addr.toNat)).toOption
    return (addr.toNat, bytes)
  | .comment _ => none
  | .section .. => none

/-- The items have byte ranges that partition `[start, stop)` in order. -/
def Partitions (items : List Item) (start stop : ℕ) : Prop :=
  ∃ pieces, items.mapM (placed checks codec) = some pieces ∧
    Contig start (pieces.map fun p => ⟨p.1, p.2.length⟩) stop

/-- The items lie one behind the other from `a` on, and hold the bytes in order. -/
def Laid (a : ℕ) : List Item → Bytes → Prop
  | [], bytes => bytes = []
  | item :: items, bytes => ∃ part rest, placed checks codec item = some (a, part) ∧
      bytes = part ++ rest ∧ Laid (a + part.length) items rest

end Placed

variable {checks : Bool} {codec : ArchCodec}

theorem partitions_nil : Partitions checks codec [] start stop ↔ start = stop := by
  constructor
  · rintro ⟨pieces, hp, hc⟩
    obtain rfl : [] = pieces := Option.some.inj hp
    exact hc
  · rintro h
    exact ⟨[], rfl, h⟩

/-- The first item starts the range, and the others partition what is left. -/
theorem partitions_cons :
    Partitions checks codec (item :: items) start stop ↔
      ∃ part, placed checks codec item = some (start, part) ∧
        Partitions checks codec items (start + part.length) stop := by
  constructor
  · rintro ⟨pieces, hp, hc⟩
    rw [mapM_cons] at hp
    obtain ⟨⟨a, part⟩, rest, hpart, hrest, rfl⟩ := steps₂_eq_some.1 hp
    obtain ⟨rfl, hc⟩ := hc
    exact ⟨part, hpart, rest, hrest, hc⟩
  rintro ⟨part, hpart, rest, hrest, hc⟩
  refine ⟨(start, part) :: rest, ?_, rfl, hc⟩
  rw [mapM_cons, hpart, hrest]
  rfl

theorem partitions_append {xs ys : List Item} :
    Partitions checks codec (xs ++ ys) start stop ↔
      ∃ mid, Partitions checks codec xs start mid ∧
        Partitions checks codec ys mid stop := by
  induction xs generalizing start with
  | nil => simp [partitions_nil]
  | cons x xs ih =>
    simp only [cons_append, partitions_cons, ih]
    constructor
    · rintro ⟨part, hpart, mid, hxs, hys⟩
      exact ⟨mid, ⟨part, hpart, hxs⟩, hys⟩
    · rintro ⟨mid, ⟨part, hpart, hxs⟩, hys⟩
      exact ⟨part, hpart, mid, hxs, hys⟩

/-- Items that are laid partition the range of their bytes. -/
theorem Laid.partitions : ∀ {items : List Item} {a : ℕ} {bytes : Bytes},
    Laid checks codec a items bytes →
      Partitions checks codec items a (a + bytes.length)
  | [], a, bytes, h => by
    obtain rfl : bytes = [] := h
    exact partitions_nil.2 rfl
  | item :: items, a, bytes, h => by
    obtain ⟨part, rest, hpart, rfl, hrest⟩ := h
    refine partitions_cons.2 ⟨part, hpart, ?_⟩
    rw [length_append, ← Nat.add_assoc]
    exact hrest.partitions

/-- Laid items, one group behind the other. -/
theorem Laid.append : ∀ {xs ys : List Item} {a : ℕ} {bytes bytes' : Bytes},
    Laid checks codec a xs bytes →
    Laid checks codec (a + bytes.length) ys bytes' →
      Laid checks codec a (xs ++ ys) (bytes ++ bytes')
  | [], ys, a, bytes, bytes', h, h' => by
    obtain rfl : bytes = [] := h
    exact h'
  | x :: xs, ys, a, bytes, bytes', h, h' => by
    obtain ⟨part, rest, hpart, rfl, hrest⟩ := h
    refine ⟨part, rest ++ bytes', hpart, append_assoc _ _ _, hrest.append ?_⟩
    rwa [length_append, ← Nat.add_assoc] at h'

/-- One item that holds the bytes at the address is laid. -/
theorem laid_singleton {a : ℕ} (h : placed checks codec item = some (a, bytes)) :
    Laid checks codec a [item] bytes :=
  ⟨bytes, [], h, by simp, rfl⟩

/-- The addresses of items are words. -/
theorem placed_lt {a : ℕ} (h : placed checks codec item = some (a, bytes)) : a < wordSize := by
  cases item with
  | raw addr | strings addr | notes addr =>
    obtain ⟨rfl, -⟩ := Prod.mk.injEq .. ▸ Option.some.inj h
    exact addr.toNat_lt
  | jumpTable addr dispatch es =>
    obtain ⟨bs, -, h⟩ := steps₁_eq_some.1 h
    obtain ⟨rfl, -⟩ := Prod.mk.inj h
    exact addr.toNat_lt
  | function f =>
    obtain ⟨addr, bs, -, -, h⟩ := steps₂_eq_some.1 h
    obtain ⟨rfl, -⟩ := Prod.mk.inj h
    exact addr.toNat_lt
  | comment | «section» => simp [placed] at h

/-! ## Lowering laid items -/

/-- The item, possibly without the address of its function. -/
def DropsAddr (item item' : Item) : Prop :=
  item' = item ∨ ∃ f, item = .function f ∧ item' = .function { f with addr := none }

theorem toOption_eq_some {ε α : Type} {x : Except ε α} {a : α} :
    x.toOption = some a ↔ x = .ok a := by
  cases x <;> simp [Except.toOption]

/-- An item that stands at the cursor appends its bytes, with its address or without it. -/
theorem lowerItem_of_placed (name : Text) {s : SectionState} {item item' : Item}
    (h : placed checks codec item = some (s.cursor, bytes)) (hdrop : DropsAddr item item') :
    lowerItem checks codec name s item' =
      .ok ⟨s.out ++ bytes, saturatingAdd s.cursor bytes.length⟩ := by
  have hplace : ∀ {addr : UInt64}, addr.toNat = s.cursor → placeBytes name s (some addr) bytes =
      .ok ⟨s.out ++ bytes, saturatingAdd s.cursor bytes.length⟩ := by
    intro addr haddr
    refine placeBytes_some_eq_ok.2 ⟨haddr.ge, ?_⟩
    simp [haddr]
  cases item with
  | function f =>
    obtain ⟨addr, bs, haddr, hbs, h⟩ := steps₂_eq_some.1 h
    obtain ⟨hcur, rfl⟩ := Prod.mk.inj h
    rw [hcur, toOption_eq_some] at hbs
    rcases hdrop with rfl | ⟨g, hg, rfl⟩
    · exact bind_eq_ok.2 ⟨bs, hbs, haddr ▸ hplace hcur⟩
    -- The bytes of a function do not depend on the address that it declares.
    obtain rfl : f = g := Item.function.inj hg
    exact bind_eq_ok.2 ⟨bs, hbs, rfl⟩
  | raw | strings | notes =>
    obtain rfl := hdrop.resolve_right (by simp)
    obtain ⟨hcur, rfl⟩ := Prod.mk.injEq .. ▸ Option.some.inj h
    exact hplace hcur
  | jumpTable addr dispatch es =>
    obtain rfl := hdrop.resolve_right (by simp)
    obtain ⟨bs, hbs, h⟩ := steps₁_eq_some.1 h
    obtain ⟨hcur, rfl⟩ := Prod.mk.inj h
    exact bind_eq_ok.2 ⟨bs, toOption_eq_some.1 hbs, hplace hcur⟩
  | comment | «section» => simp [placed] at h

/-- Items laid from the cursor on append their bytes. Only the last can pass the last address. -/
theorem lowerItems_of_laid (name : Text) {items items' : List Item} {a : ℕ}
    {s : SectionState} (hlaid : Laid checks codec a items bytes)
    (hdrops : List.Forall₂ DropsAddr items items') (hcur : s.cursor = min a (wordSize - 1)) :
    ∃ s', lowerItems checks codec name s items' = .ok s' ∧ s'.out = s.out ++ bytes := by
  induction hdrops generalizing a bytes s with
  | nil =>
    obtain rfl : bytes = [] := hlaid
    exact ⟨s, rfl, (append_nil _).symm⟩
  | cons hdrop hdrops ih =>
    obtain ⟨part, rest, hpart, rfl, hrest⟩ := hlaid
    have hlt := placed_lt hpart
    obtain rfl : a = s.cursor := by omega
    have hstep := lowerItem_of_placed name hpart hdrop
    obtain ⟨s', hs', hout⟩ := ih (s := ⟨s.out ++ part, saturatingAdd s.cursor part.length⟩)
      hrest rfl
    refine ⟨s', ?_, by rw [hout, append_assoc]⟩
    rw [lowerItems, foldlM_cons, hstep]
    exact hs'

theorem dropsAddr_dropAddr (cursor : ℕ) (item : Item) : DropsAddr item (dropAddr cursor item) := by
  cases item with
  | function f =>
    simp only [dropAddr]
    split_ifs
    · exact .inr ⟨f, rfl, rfl⟩
    · exact .inl rfl
  | _ => exact .inl rfl

/-- The second pass only drops addresses of functions. -/
theorem dropsAddr_of_dropRedundant : ∀ {items items' : List Item} {cursor : ℕ},
    dropRedundantFunctionAddrs checks cursor items = some items' →
      List.Forall₂ DropsAddr items items'
  | [], items', _, h => by
    obtain rfl : [] = items' := Option.some.inj h
    exact .nil
  | item :: items, items', cursor, h => by
    obtain ⟨next, rest, -, hrest, rfl⟩ := steps₂_eq_some.1 h
    exact .cons (dropsAddr_dropAddr cursor item) (dropsAddr_of_dropRedundant hrest)

/-! ## The functions of a section -/

/-- The functions stand one behind the other from `a` on, and the last of them ends at `e`. -/
def Follows (a : ℕ) : List Function → ℕ → Prop
  | [], e => a = e
  | f :: fs, e => a ≤ f.addr.toNat ∧ Follows f.stop fs e

theorem Follows.le : ∀ {fs : List Function} {a e : ℕ}, Follows a fs e → a ≤ e
  | [], _, _, h => le_of_eq h
  | f :: fs, a, e, h => by
    have := Follows.le h.2
    have := h.1
    unfold Function.stop at *
    omega

/-- The instructions behind the raw start of the gap `[addr, addr + n)` have an address. If there
are none, it is still computed, which matters with overflow checks. -/
def FragmentFits (checks : Bool) (addr n : ℕ) : Prop :=
  addr + n % 8 < wordSize ∨ checks = false ∧ n < 8

section Cut

variable {ε : Type} {lift : Lifter ε} {backend : Backend} {exec : Bool}

/-- Each lifted function lowers to the bytes it was lifted from. -/
def LiftsBack (checks : Bool) (codec : ArchCodec) (lift : Lifter ε) : Prop :=
  ∀ name addr bytes l, lift name addr bytes = .ok l →
    lowerFunctionBytesAt checks codec (l.declare name addr) (some addr.toNat) = .ok bytes

section Estimates

variable (checks) (lift) (backend) (exec)

/-- The cursor behind a function that is lifted, by its estimated size at the cursor. -/
def estimateLifted (name : Text) (addr : UInt64) (bytes : Bytes) (cursor : ℕ) : Option ℕ :=
  match lift name addr bytes with
  | .ok l => do
    let size ← stmtsTotalBytesAt checks cursor l.body
    return saturatingAdd cursor size
  | .error _ => some cursor

/-- The cursor behind the instructions of a gap. -/
def estimateFragment (codeAddr : ℕ) (code : Bytes) (cursor : ℕ) : Option ℕ :=
  if code = [] then some cursor
  else estimateLifted checks lift ("fragment_".toList ++ Text.toHex codeAddr)
    (.ofNat codeAddr) code cursor

/-- The cursor behind the gap with the bytes at `addr`. A raw item moves it to its own end. -/
def estimateGap (addr : ℕ) (bytes : Bytes) (cursor : ℕ) : Option ℕ :=
  if bytes = [] then some cursor
  else if exec && backend.isBpf then
    let headLen := bytes.length % 8
    estimateFragment checks lift (addr + headLen) (bytes.drop headLen)
      (if headLen = 0 then cursor else saturatingAdd addr headLen)
  else some (saturatingAdd addr bytes.length)

/-- The bytes of a section at `start` from the address `a` up to the address `b`. -/
def between (start : ℕ) (data : Bytes) (a b : ℕ) : Bytes := window data (a - start) (b - a)

/-- The cursor behind functions that follow one another from `a` on, and the gaps between. -/
def estimateFunctions (start : ℕ) (data : Bytes) : ℕ → List Function → ℕ → Option ℕ
  | _, [], cursor => some cursor
  | a, f :: fs, cursor => do
    let cursor ← estimateGap checks lift backend exec a
      (between start data a f.addr.toNat) cursor
    let cursor ← estimateLifted checks lift f.name f.addr
      (between start data f.addr.toNat f.stop) cursor
    estimateFunctions start data f.stop fs cursor

/-- The sizes of a section at `start`, whose functions end at `e`, are estimated without an
overflow. -/
def SizesFit (start : ℕ) (data : Bytes) (fs : List Function) (e : ℕ) : Prop :=
  (do
    let cursor ← estimateFunctions checks lift backend exec start data start fs start
    estimateGap checks lift backend exec e
      (between start data e (start + data.length)) cursor).isSome

end Estimates

/-- The items are laid, and move the cursor of the second pass as it was estimated. -/
def Emits (checks : Bool) (codec : ArchCodec) (a : ℕ) (items : List Item) (bytes : Bytes)
    (estimate : ℕ → Option ℕ) : Prop :=
  Laid checks codec a items bytes ∧
    ∀ cursor, items.foldlM (cursorBehind checks) cursor = estimate cursor

/-- Items that are emitted one group behind the other. -/
theorem Emits.append {xs ys : List Item} {a : ℕ} {bytes bytes' : Bytes}
    {estimate estimate' : ℕ → Option ℕ} (h : Emits checks codec a xs bytes estimate)
    (h' : Emits checks codec (a + bytes.length) ys bytes' estimate') :
    Emits checks codec a (xs ++ ys) (bytes ++ bytes')
      fun cursor => (estimate cursor).bind estimate' := by
  refine ⟨h.1.append h'.1, fun cursor => ?_⟩
  rw [foldlM_append, h.2 cursor]
  exact congrArg _ (funext h'.2)

/-- One item that stands at its address. -/
theorem emits_singleton {a : ℕ} {estimate : ℕ → Option ℕ}
    (h : placed checks codec item = some (a, bytes))
    (hestimate : ∀ cursor, cursorBehind checks cursor item = estimate cursor) :
    Emits checks codec a [item] bytes estimate := by
  refine ⟨laid_singleton h, fun cursor => ?_⟩
  rw [foldlM_cons, hestimate]
  exact Option.bind_fun_some _

/-- No items, for no bytes. -/
theorem emits_nil (a : ℕ) : Emits checks codec a [] [] some := ⟨rfl, fun _ => rfl⟩

variable (hlift : LiftsBack checks codec lift)

include hlift

/-- The item of a lifted function stands at its address and holds the bytes. -/
theorem placed_of_liftItem {name : Text}
    {addr : UInt64} (h : liftItem lift name addr bytes = .ok item) :
    placed checks codec item = some (addr.toNat, bytes) := by
  unfold liftItem at h
  split at h
  · rename_i l hl
    obtain rfl := Except.ok.inj h
    have hbytes := toOption_eq_some.2 (hlift name addr bytes l hl)
    exact bind_eq_some_iff.2 ⟨bytes, hbytes, rfl⟩
  · simp [fail] at h

/-- The lifting of a function does not panic. -/
theorem safe_liftItem (name : Text) (addr : UInt64) (bytes : Bytes) :
    Run.Safe (fun item => Emits checks codec addr.toNat [item] bytes
      (estimateLifted checks lift name addr bytes)) (liftItem lift name addr bytes) := by
  cases hl : lift name addr bytes with
  | ok l =>
    have hitem : liftItem lift name addr bytes = .ok (.function (l.declare name addr)) := by
      rw [liftItem, hl]
    rw [hitem]
    refine emits_singleton (placed_of_liftItem hlift hitem) fun cursor => ?_
    rw [estimateLifted, hl]
    rfl
  | error e =>
    rw [liftItem, hl]
    trivial

omit hlift in
/-- What is left over from whole slots. -/
theorem length_take_mod (bytes : Bytes) (n : ℕ) :
    (bytes.take (bytes.length % n)).length = bytes.length % n := by
  rw [length_take, min_eq_left (Nat.mod_le _ _)]

omit hlift in
/-- A gap that is a raw item stands at its address. -/
theorem placed_raw {addr : ℕ} (h : addr < wordSize) (bytes : Bytes) :
    placed checks codec (.raw (.ofNat addr) bytes) = some (addr, bytes) := by
  rw [placed, UInt64.toNat_ofNat_of_lt' h]

/-- Instructions are laid at their address. Where there are none, the address does not matter. -/
theorem safe_emitFragment {codeAddr addr : ℕ}
    {code : Bytes} (haddr : code ≠ [] → codeAddr = addr ∧ addr < wordSize) :
    Run.Safe (fun items => Emits checks codec addr items code
      (estimateFragment checks lift addr code)) (emitFragment lift codeAddr code) := by
  unfold emitFragment estimateFragment
  split_ifs with hempty
  · rw [hempty]
    exact emits_nil addr
  obtain ⟨rfl, hlt⟩ := haddr hempty
  refine .bind (safe_liftItem hlift _ _ _) fun item hitem => ?_
  rwa [UInt64.toNat_ofNat_of_lt' hlt] at hitem

omit hlift in
/-- A gap that is a raw item is emitted at its address, and the cursor moves to its end. -/
theorem emits_raw {addr : ℕ} (h : addr < wordSize) (bytes : Bytes) :
    Emits checks codec addr [.raw (.ofNat addr) bytes] bytes
      fun _ => some (saturatingAdd addr bytes.length) := by
  refine emits_singleton (placed_raw h bytes) fun cursor => ?_
  rw [cursorBehind, UInt64.toNat_ofNat_of_lt' h]

omit hlift in
/-- The raw start of a gap is emitted at its address. -/
theorem emits_head {addr : ℕ} (haddr : addr < wordSize) (bytes : Bytes) :
    Emits checks codec addr
      (if bytes.length % 8 = 0 then [] else [.raw (.ofNat addr) (bytes.take (bytes.length % 8))])
      (bytes.take (bytes.length % 8)) fun cursor =>
        some (if bytes.length % 8 = 0 then cursor else saturatingAdd addr (bytes.length % 8)) := by
  have hlen : (bytes.take (bytes.length % 8)).length = bytes.length % 8 := length_take_mod bytes 8
  split_ifs with hzero
  · rw [hzero]
    exact emits_nil addr
  · have hraw : Emits checks codec addr _ _ _ :=
      emits_raw haddr (bytes.take (bytes.length % 8))
    rwa [hlen] at hraw

/-- A gap is emitted at its address. -/
theorem safe_emitGap {addr : ℕ} (haddr : addr < wordSize)
    (hfits : (exec && backend.isBpf) = true → FragmentFits checks addr bytes.length) :
    Run.Safe (fun items => Emits checks codec addr items bytes
        (estimateGap checks lift backend exec addr bytes))
      (emitGap checks lift backend exec addr bytes) := by
  unfold emitGap estimateGap
  split_ifs with hnil hbpf
  · rw [hnil]
    exact emits_nil addr
  · have hsome : (addWord checks addr (bytes.length % 8)).isSome := by
      refine isSome_addWord.2 fun hchecks => ?_
      rcases hfits hbpf with h | ⟨h, -⟩
      · exact h
      · simp [hchecks] at h
    obtain ⟨codeAddr, hcode⟩ := isSome_iff_exists.1 hsome
    -- Where there are instructions, their address did not wrap.
    have hcodeAddr : bytes.drop (bytes.length % 8) ≠ [] →
        codeAddr = addr + (bytes.take (bytes.length % 8)).length ∧
          addr + (bytes.take (bytes.length % 8)).length < wordSize := by
      intro hne
      have hlong : 8 ≤ bytes.length := by
        by_contra hlt
        exact hne (drop_eq_nil_of_le (by omega))
      have hlt : addr + bytes.length % 8 < wordSize := (hfits hbpf).resolve_right fun h => by omega
      rw [addWord_of_lt hlt, Option.some.injEq] at hcode
      rw [length_take_mod]
      exact ⟨hcode.symm, hlt⟩
    refine .bind (.orPanic hcode rfl) ?_
    rintro _ rfl
    refine .bind (safe_emitFragment hlift hcodeAddr) fun items hitems => ?_
    have hall := (emits_head haddr bytes).append hitems
    rwa [take_append_drop, length_take_mod] at hall
  · exact emits_raw haddr bytes

omit hlift in
/-- The end of items that partition a range is that of the first item when there is only one. -/
theorem partitions_singleton {addr start stop : ℕ}
    (hitem : placed checks codec item = some (addr, bytes))
    (h : Partitions checks codec [item] start stop) :
    start = addr ∧ stop = addr + bytes.length := by
  obtain ⟨part, hpart, h⟩ := partitions_cons.1 h
  obtain ⟨rfl, rfl⟩ := Prod.mk.injEq .. ▸ Option.some.inj (hitem.symm.trans hpart)
  exact ⟨rfl, (partitions_nil.1 h).symm⟩

/-- Instructions that partition a range start at their address. -/
theorem partitions_emitFragment {codeAddr : ℕ} {code : Bytes} (hlt : codeAddr < wordSize)
    (h : emitFragment lift codeAddr code = .ok items)
    (hpart : Partitions checks codec items start stop) :
    (code ≠ [] → start = codeAddr) ∧ stop = start + code.length := by
  unfold emitFragment at h
  split_ifs at h with hempty
  · obtain rfl : [] = items := pure_eq_ok.1 h
    rw [hempty]
    exact ⟨fun hne => absurd rfl hne, (partitions_nil.1 hpart).symm⟩
  obtain ⟨item, hitem, h⟩ := bind_eq_ok.1 h
  obtain rfl : [item] = items := pure_eq_ok.1 h
  have hplaced := placed_of_liftItem hlift hitem
  rw [UInt64.toNat_ofNat_of_lt' hlt] at hplaced
  obtain ⟨hstart, hstop⟩ := partitions_singleton hplaced hpart
  exact ⟨fun _ => hstart, by rw [hstop, hstart]⟩

/-- A gap that partitions a range starts at its address and ends behind its bytes. -/
theorem partitions_emitGap {addr start stop : ℕ} (haddr : addr < wordSize) (hne : bytes ≠ [])
    (h : emitGap checks lift backend exec addr bytes = .ok items)
    (hpart : Partitions checks codec items start stop) :
    start = addr ∧ stop = addr + bytes.length ∧
      ((exec && backend.isBpf) = true → FragmentFits checks addr bytes.length) := by
  unfold emitGap at h
  rw [if_neg hne] at h
  split_ifs at h with hbpf
  · obtain ⟨codeAddr, hcode, h⟩ := bind_eq_ok.1 h
    obtain ⟨fragment, hfrag, rfl⟩ := steps₁_eq_ok.1 h
    have hmod : bytes.length % 8 < wordSize := (Nat.mod_lt _ (by decide)).trans (by decide)
    obtain ⟨hlt, hsum⟩ := addWord_eq_some haddr hmod (orPanic_eq_ok.1 hcode)
    obtain ⟨mid, hhead, htail⟩ := partitions_append.1 hpart
    obtain ⟨hmid, hstop⟩ := partitions_emitFragment hlift hlt hfrag htail
    have hlen := length_take_mod bytes 8
    have hlong : bytes.drop (bytes.length % 8) = [] → bytes.length < 8 := by
      rw [drop_eq_nil_iff]
      omega
    rw [length_drop] at hstop
    have hboth : start = addr ∧ mid = addr + bytes.length % 8 := by
      split_ifs at hhead with hzero
      · -- All bytes are instructions, and their address is that of the gap.
        have hne' : bytes.drop (bytes.length % 8) ≠ [] := by rwa [hzero, drop_zero]
        have := partitions_nil.1 hhead
        have := hmid hne'
        omega
      · rw [← hlen]
        exact partitions_singleton (placed_raw haddr _) hhead
    refine ⟨hboth.1, by omega, fun _ => ?_⟩
    rcases hsum with hsum | ⟨hchecks, hwrap⟩
    · exact .inl (by omega)
    refine .inr ⟨hchecks, hlong ?_⟩
    by_contra hne'
    have := hmid hne'
    omega
  · obtain rfl := pure_eq_ok.1 h
    obtain ⟨hstart, hstop⟩ := partitions_singleton (placed_raw haddr bytes) hpart
    exact ⟨hstart, hstop, fun hb => absurd hb hbpf⟩

variable {start : ℕ} {data : Bytes}

omit hlift in
theorem length_between {a b : ℕ} (ha : start ≤ a) (hab : a ≤ b) (hb : b ≤ start + data.length) :
    (between start data a b).length = b - a :=
  length_window (by omega)

omit hlift in
/-- Items that are emitted up to `b`, and items that are emitted from there on. -/
theorem Emits.trans {xs ys : List Item} {a b c : ℕ} {estimate estimate' : ℕ → Option ℕ}
    (ha : start ≤ a) (hab : a ≤ b) (hbc : b ≤ c) (hc : c ≤ start + data.length)
    (h : Emits checks codec a xs (between start data a b) estimate)
    (h' : Emits checks codec b ys (between start data b c) estimate') :
    Emits checks codec a (xs ++ ys) (between start data a c)
      fun cursor => (estimate cursor).bind estimate' := by
  have hlen : a + (between start data a b).length = b := by
    rw [length_between ha hab (by omega)]
    omega
  have hsplit : between start data a b ++ between start data b c = between start data a c := by
    have hoff : b - start = a - start + (b - a) := by omega
    rw [between, between, between, hoff, window_add]
    congr 1
    omega
  rw [← hsplit]
  refine h.append ?_
  rwa [hlen]

omit hlift in
/-- There is nothing from an address up to itself. -/
theorem between_self (a : ℕ) : between start data a a = [] := by
  rw [between, Nat.sub_self]
  exact take_zero

/-- The gap from `a` to `b` is emitted. It is looked for at the cursor. -/
theorem safe_gapUpTo {a b cursor stop : ℕ} (ha : start ≤ a) (hdone : ¬cursor < stop → a = b)
    (hgap : cursor < stop → cursor = a ∧ a < wordSize ∧ a ≤ b ∧ b ≤ start + data.length ∧
      ((exec && backend.isBpf) = true → FragmentFits checks a (b - a))) :
    Run.Safe (fun items => Emits checks codec a items (between start data a b)
        (estimateGap checks lift backend exec a (between start data a b)))
      (gapUpTo checks lift backend exec start data cursor stop (b - start)) := by
  unfold gapUpTo
  split_ifs with hlt
  · obtain ⟨rfl, haddr, hab, hb, hfits⟩ := hgap hlt
    have hslice : slice data (cursor - start) (b - start) = some (between start data cursor b) := by
      refine slice_eq_some.2 ⟨⟨by omega, by omega⟩, ?_⟩
      rw [between]
      congr 1
      omega
    refine .bind (.orPanic hslice rfl) ?_
    rintro _ rfl
    refine safe_emitGap hlift haddr fun hbpf => ?_
    rw [length_between ha hab hb]
    exact hfits hbpf
  · obtain rfl := hdone hlt
    rw [between_self]
    exact .pure (emits_nil a)

/-- The loop over functions that follow one another emits them and the gaps between them. -/
theorem safe_cutFunctions
    (hdata : data.length < wordSize) : ∀ {fs : List Function} {a e cursor : ℕ},
    Follows a fs e → start ≤ a → e ≤ start + data.length → cursor = min a (wordSize - 1) →
    (backend = .opaqueArch → fs = []) →
      Run.Safe (fun r => r.2 = min e (wordSize - 1) ∧
          Emits checks codec a r.1 (between start data a e)
            (estimateFunctions checks lift backend exec start data a fs))
        (cutFunctions checks lift backend exec start data cursor fs)
  | [], a, e, cursor, hfs, _, _, hcur, _ => by
    obtain rfl : a = e := hfs
    rw [between_self]
    exact .pure ⟨hcur, emits_nil a⟩
  | f :: fs, a, e, cursor, hfs, ha, he, hcur, hop => by
    obtain ⟨hle, hfs⟩ := hfs
    have hend := hfs.le
    have haddr : f.addr.toNat < wordSize := f.addr.toNat_lt
    have hstop : f.stop = f.addr.toNat + f.size.toNat := rfl
    have hlo : f.addr.toNat - start + f.size.toNat = f.stop - start := by omega
    obtain rfl : cursor = a := by omega
    have hback : backend ≠ .opaqueArch := fun h => by simpa using hop h
    -- The gap before the function ends at an address, so that its instructions have one too.
    refine .bind (safe_gapUpTo hlift ha (by omega) fun _ =>
      ⟨rfl, by omega, hle, by omega, fun _ => .inl ?_⟩) fun gap hgap => ?_
    · have := Nat.mod_le (f.addr.toNat - cursor) 8
      omega
    refine .bind (.orPanic (addWord_of_lt (by omega)) rfl) ?_
    rintro _ rfl
    have hslice : slice data (f.addr.toNat - start) (f.addr.toNat - start + f.size.toNat) =
        some (between start data f.addr.toNat f.stop) := by
      refine slice_eq_some.2 ⟨⟨by omega, by omega⟩, ?_⟩
      rw [between]
      congr 1
      omega
    refine .bind (.orPanic hslice rfl) ?_
    rintro _ rfl
    rw [if_neg hback]
    refine .bind (safe_liftItem hlift _ _ _) fun item hitem => ?_
    refine .bind (safe_cutFunctions hdata hfs (by omega) he rfl fun h => absurd h hback)
      fun r hr => ?_
    obtain ⟨hlast, hrest⟩ := hr
    have hfun := Emits.trans (by omega) (by omega) hend he hitem hrest
    exact .pure ⟨hlast, Emits.trans ha hle (by omega) he hgap hfun⟩

/-- A gap that partitions a range starts at the cursor and ends at position `hi`. -/
theorem partitions_gapUpTo {a mid cursor stop hi : ℕ} (hstart : start ≤ cursor)
    (hcur : cursor < wordSize)
    (hhi : cursor < stop → cursor - start < hi)
    (h : gapUpTo checks lift backend exec start data cursor stop hi = .ok items)
    (hpart : Partitions checks codec items a mid) : (cursor < stop → a = cursor ∧ mid = start + hi ∧
        ((exec && backend.isBpf) = true →
          FragmentFits checks cursor (start + hi - cursor))) ∧
      (¬cursor < stop → a = mid) := by
  unfold gapUpTo at h
  split_ifs at h with hlt
  · refine ⟨fun _ => ?_, fun hn => absurd hlt hn⟩
    have hpos := hhi hlt
    obtain ⟨bytes, hbytes, h⟩ := bind_eq_ok.1 h
    have hlen := length_of_slice (orPanic_eq_ok.1 hbytes)
    have hne : bytes ≠ [] := by
      rintro rfl
      simp only [length_nil] at hlen
      omega
    obtain ⟨ha, hmid, hfits⟩ := partitions_emitGap hlift hcur hne h hpart
    have hlen' : bytes.length = start + hi - cursor := by omega
    rw [hlen'] at hmid hfits
    exact ⟨ha, by omega, hfits⟩
  · obtain rfl : [] = items := pure_eq_ok.1 h
    exact ⟨fun hl => absurd hl hlt, fun _ => partitions_nil.1 hpart⟩

/-- If the items of the loop start a partition, the functions follow one another. -/
theorem follows_of_partitions {stop : ℕ}
    {tail : List Item} : ∀ {fs : List Function} {a cursor : ℕ} {r : List Item × ℕ},
    cutFunctions checks lift backend exec start data cursor fs = .ok r →
    (∀ f ∈ fs, start ≤ f.addr.toNat) → start ≤ a → start < wordSize →
    cursor = min a (wordSize - 1) → (backend = .opaqueArch → fs = []) →
    Partitions checks codec (r.1 ++ tail) a stop →
      ∃ e, Follows a fs e ∧ start ≤ e ∧ r.2 = min e (wordSize - 1) ∧
        Partitions checks codec tail e stop
  | [], a, cursor, r, h, _, ha, _, hcur, _, hpart => by
    obtain rfl := pure_eq_ok.1 h
    exact ⟨a, rfl, ha, hcur, hpart⟩
  | f :: fs, a, cursor, r, h, hall, ha, hstart, hcur, hop, hpart => by
    have hback : backend ≠ .opaqueArch := fun h => by simpa using hop h
    have hf := hall f (by simp)
    have haddr : f.addr.toNat < wordSize := f.addr.toNat_lt
    have hsize : f.size.toNat < wordSize := f.size.toNat_lt
    obtain ⟨gap, hi, hgap, hhi, h⟩ := bind₂_eq_ok.1 h
    obtain ⟨bytes, hbytes, h⟩ := bind_eq_ok.1 h
    rw [if_neg hback] at h
    obtain ⟨item, r', hitem, hr', rfl⟩ := steps₂_eq_ok.1 h
    -- The bytes of the function are as many as its size: an end that wraps is no slice.
    have hlen : bytes.length = f.size.toNat := by
      have hslice := orPanic_eq_ok.1 hbytes
      have hlen := length_of_slice hslice
      have hle := (slice_eq_some.1 hslice).1.1
      have hsum := (addWord_eq_some (by omega) hsize (orPanic_eq_ok.1 hhi)).2
      omega
    rw [append_assoc, cons_append] at hpart
    obtain ⟨mid, hgapPart, hrest⟩ := partitions_append.1 hpart
    obtain ⟨part, hplaced, hrest⟩ := partitions_cons.1 hrest
    obtain ⟨hmid, rfl⟩ := Prod.mk.injEq .. ▸
      Option.some.inj ((placed_of_liftItem hlift hitem).symm.trans hplaced)
    rw [← hmid, hlen] at hrest
    have hcuts := partitions_gapUpTo hlift (by omega) (by omega) (by omega) hgap hgapPart
    have hle : a ≤ f.addr.toNat := by
      by_cases hlt : cursor < f.addr.toNat
      · have := (hcuts.1 hlt).1
        omega
      · have := hcuts.2 hlt
        omega
    obtain ⟨e, hfs, he, hlast, htail⟩ := follows_of_partitions hr'
      (fun g hg => hall g (by simp [hg])) (by omega) hstart rfl (fun h => absurd h hback) hrest
    exact ⟨e, ⟨hle, hfs⟩, he, hlast, htail⟩

/-! ## The whole section -/

/-- What follows the functions, which end at `e`, is kept: nothing does, or they end before the last
address and the instructions behind have an address. -/
def TailFits (checks : Bool) (backend : Backend) (exec : Bool) (stop e : ℕ) : Prop :=
  e = stop ∨ e < stop ∧ e < wordSize - 1 ∧
    ((exec && backend.isBpf) = true → FragmentFits checks e (stop - e))

/-- A section whose functions follow one another is cut into items that are laid, and whose sizes
fit if the second pass gets through. -/
theorem safe_cutSection (hdata : data.length < wordSize) {fs : List Function} {e : ℕ}
    (hstart : start < wordSize) (hfs : Follows start fs e) (hop : backend = .opaqueArch → fs = [])
    (htail : TailFits checks backend exec (start + data.length) e) :
    Run.Safe (fun items => Laid checks codec start items data ∧
        ((items.foldlM (cursorBehind checks) start).isSome ↔
          SizesFit checks lift backend exec start data fs e))
      (cutSection checks lift backend exec start (saturatingAdd start data.length) data
        fs) := by
  have hle := hfs.le
  have he : e ≤ start + data.length := by
    rcases htail with h | h <;> omega
  refine .bind (safe_cutFunctions hlift hdata hfs le_rfl he (by omega) hop) fun r hr => ?_
  obtain ⟨hlast, hitems⟩ := hr
  have hcut : saturatingAdd start data.length = min (start + data.length) (wordSize - 1) := rfl
  have hgap : Run.Safe (fun items => Emits checks codec e items
      (between start data e (start + data.length)) (estimateGap checks lift backend exec e
        (between start data e (start + data.length)))) (gapUpTo checks lift backend exec start
          data r.2 (saturatingAdd start data.length) (start + data.length - start)) := by
    refine safe_gapUpTo hlift hle (fun hdone => ?_) fun hlt => ?_
    · rcases htail with h | ⟨h1, h2, -⟩ <;> omega
    rcases htail with h | ⟨-, hlast', hfits⟩
    · omega
    · exact ⟨by omega, by omega, he, le_rfl, hfits⟩
  rw [Nat.add_sub_cancel_left] at hgap
  refine .bind hgap fun tail htailItems => ?_
  obtain ⟨hlaid, hestimate⟩ := Emits.trans le_rfl hle he le_rfl hitems htailItems
  rw [between, Nat.sub_self, Nat.add_sub_cancel_left, window, drop_zero, take_length] at hlaid
  refine ⟨hlaid, ?_⟩
  rw [hestimate]
  rfl

/-- A cut that partitions the section shows that its functions follow one another. -/
theorem fits_of_partitions {fs : List Function} (hstart : start < wordSize)
    (hall : ∀ f ∈ fs, start ≤ f.addr.toNat)
    (hop : backend = .opaqueArch → fs = [])
    (h : cutSection checks lift backend exec start (saturatingAdd start data.length) data fs =
      .ok items) (hpart : Partitions checks codec items start (start + data.length)) :
    ∃ e, Follows start fs e ∧ TailFits checks backend exec (start + data.length) e := by
  obtain ⟨r, tail, hr, htail, rfl⟩ := steps₂_eq_ok.1 h
  obtain ⟨e, hfs, he, hlast, hpart⟩ :=
    follows_of_partitions hlift hr hall le_rfl hstart (by omega) hop hpart
  have hcut : saturatingAdd start data.length = min (start + data.length) (wordSize - 1) := rfl
  have hgap := partitions_gapUpTo hlift (by omega) (by omega) (by omega) htail hpart
  refine ⟨e, hfs, ?_⟩
  by_cases hlt : r.2 < saturatingAdd start data.length
  · obtain ⟨hcur, -, hfits⟩ := hgap.1 hlt
    exact .inr ⟨by omega, by omega, hcur ▸ hfits⟩
  · exact .inl (hgap.2 hlt)

end Cut

/-- The section has a structured form, or its functions follow one another, the rest is kept, and
with overflow checks no size estimate overflows. -/
def SectionFits {ε : Type} (checks : Bool) (lift : Lifter ε) (elf : Elf64File) (idx : ℕ)
    (sh : Shdr64) (data : Bytes) (map : FunctionMap) : Prop :=
  (structuredItem elf idx sh data).isSome ∨
    ∃ e, Follows sh.sh_addr (sectionFunctions map sh) e ∧
      TailFits checks (backendOf elf) (isExec sh) (sh.sh_addr + sh.sh_size) e ∧
      (checks = true →
        SizesFit true lift (backendOf elf) (isExec sh) sh.sh_addr data (sectionFunctions map sh) e)

/-- The structured form of a section holds its bytes. -/
theorem placed_structuredItem {elf : Elf64File} {idx : ℕ} {sh : Shdr64} {data : Bytes}
    (haddr : sh.sh_addr < wordSize) (h : structuredItem elf idx sh data = some item) :
    placed checks codec item = some (sh.sh_addr, data) := by
  have hof : (UInt64.ofNat sh.sh_addr).toNat = sh.sh_addr := UInt64.toNat_ofNat_of_lt' haddr
  simp only [structuredItem, or_eq_some_iff, map_eq_some_iff] at h
  rcases h with ⟨strings, hstrings, rfl⟩ | ⟨-, notes, hnotes, rfl⟩
  · split_ifs at hstrings
    rw [placed, hof, lowerStringsBytes_decodeStrtab hstrings]
  · split_ifs at hnotes
    rw [placed, hof, lowerNotesBytes_decodeNotes hnotes]

/-- Items that are laid over a section lower to it, once the second pass has gone over them. -/
theorem lowers_of_laid {items items' : List Item} {sh : Shdr64} {data : Bytes}
    (haddr : sh.sh_addr < wordSize) (name : Text) (hlaid : Laid checks codec sh.sh_addr items data)
    (hdrop : dropRedundantFunctionAddrs checks sh.sh_addr items = some items') :
    lowerSectionBytes checks codec name (.ofNat sh.sh_addr) items' = .ok data := by
  have hof : (UInt64.ofNat sh.sh_addr).toNat = sh.sh_addr := UInt64.toNat_ofNat_of_lt' haddr
  obtain ⟨s, hs, hout⟩ := lowerItems_of_laid name
    (s := ⟨[], (UInt64.ofNat sh.sh_addr).toNat⟩) hlaid (dropsAddr_of_dropRedundant hdrop)
    (by simp only [hof]; omega)
  exact bind_eq_ok.2 ⟨s, hs, by rw [hout]; rfl⟩

/-- The second pass gets through where its cursor does. -/
theorem isSome_dropRedundantFunctionAddrs : ∀ (items : List Item) (cursor : ℕ),
    (dropRedundantFunctionAddrs checks cursor items).isSome =
      (items.foldlM (cursorBehind checks) cursor).isSome
  | [], _ => rfl
  | item :: items, cursor => by
    rw [dropRedundantFunctionAddrs, foldlM_cons]
    cases cursorBehind checks cursor item with
    | none => rfl
    | some next =>
      have ih := isSome_dropRedundantFunctionAddrs items next
      simp only [Option.bind_eq_bind, Option.bind_some] at ih ⊢
      rw [← ih]
      cases dropRedundantFunctionAddrs checks next items <;> rfl

/-- A section of an accepted file whose code can be lifted is cut into items that partition it in
order and that lower to its bytes, exactly when it has a structured form or its functions follow one
another and their sizes are estimated without an overflow. -/
theorem buildSectionItems_lowers_iff {ε : Type} (checks : Bool) (codec : ArchCodec)
    (lift : Lifter ε) (hlift : LiftsBack checks codec lift) (b : Bytes) (elf : Elf64File)
    (hparse : Elf64File.parse b = .ok elf) (map : FunctionMap)
    (hmap : backendOf elf = .opaqueArch → map.functions = []) (idx : ℕ) (sh : Shdr64) (data : Bytes)
    (hsh : elf.shdrs[idx]? = some sh) (hdata : elf.section_data[idx]? = some data)
    (hemit : sectionIsEmittable sh = true)
    (hrun : ∀ e, buildSectionItems checks lift elf idx sh data map ≠ .error (.err e))
    (name : Text) : (∃ items items', buildSectionItems checks lift elf idx sh data map = .ok items ∧
        Partitions checks codec items sh.sh_addr (sh.sh_addr + sh.sh_size) ∧
        dropRedundantFunctionAddrs checks sh.sh_addr items = some items' ∧
        lowerSectionBytes checks codec name (.ofNat sh.sh_addr) items' = .ok data) ↔
      SectionFits checks lift elf idx sh data map := by
  have hparsed := Elf64File.parse_spec hparse
  obtain ⟨haddr, hsize⟩ := hparsed.shdr_lt hsh
  have hlen : data.length = sh.sh_size := by
    refine hparsed.length_data hsh hdata ?_
    simp only [sectionIsEmittable, Bool.and_eq_true] at hemit
    simp only [Shdr64.occupiesFile, Bool.and_eq_true]
    exact ⟨hemit.1.2, hemit.2⟩
  have hop : backendOf elf = .opaqueArch → sectionFunctions map sh = [] := by
    intro h
    simp [sectionFunctions, hmap h]
  unfold SectionFits
  rw [← hlen]
  unfold buildSectionItems at hrun ⊢
  rw [← hlen] at hrun ⊢
  cases hitem : structuredItem elf idx sh data with
  | some item =>
    -- The structured form is one item, whose size is not estimated.
    refine iff_of_true ?_ (.inl rfl)
    have hlaid : Laid checks codec sh.sh_addr [item] data :=
      laid_singleton (placed_structuredItem haddr hitem)
    obtain ⟨items', hdrop⟩ : ∃ items',
        dropRedundantFunctionAddrs checks sh.sh_addr [item] = some items' := by
      simp only [structuredItem, or_eq_some_iff, map_eq_some_iff] at hitem
      rcases hitem with ⟨strings, -, rfl⟩ | ⟨-, notes, -, rfl⟩ <;> exact ⟨_, rfl⟩
    exact ⟨[item], items', rfl, hlaid.partitions, hdrop, lowers_of_laid haddr name hlaid hdrop⟩
  | none =>
    rw [hitem] at hrun
    simp only [Option.isSome_none, Bool.false_eq_true, false_or]
    constructor
    · rintro ⟨items, items', hbuild, hpart, hdrop, -⟩
      have hall : ∀ f ∈ sectionFunctions map sh, sh.sh_addr ≤ f.addr.toNat := by
        intro f hf
        unfold sectionFunctions at hf
        split_ifs at hf
        · simp only [List.mem_filter, decide_eq_true_eq] at hf
          exact hf.2.2.1
        · simp at hf
      obtain ⟨e, hfs, htail⟩ := fits_of_partitions hlift haddr hall hop hbuild hpart
      refine ⟨e, hfs, htail, fun hchecks => ?_⟩
      have hsafe := safe_cutSection hlift (hlen ▸ hsize) haddr hfs hop htail
      rw [hbuild] at hsafe
      rw [← hchecks]
      refine hsafe.2.1 ?_
      rw [← isSome_dropRedundantFunctionAddrs, hdrop]
      rfl
    · rintro ⟨e, hfs, htail, hsizes⟩
      obtain ⟨items, hitems, hlaid, hestimate⟩ | ⟨err, herr⟩ :=
        (safe_cutSection hlift (hlen ▸ hsize) haddr hfs hop htail).ok_or_err
      · obtain ⟨items', hdrop⟩ :
            ∃ items', dropRedundantFunctionAddrs checks sh.sh_addr items = some items' := by
          rw [← Option.isSome_iff_exists, isSome_dropRedundantFunctionAddrs]
          cases checks with
          | true => exact hestimate.2 (hsizes rfl)
          | false => exact isSome_foldlM_cursorBehind items sh.sh_addr
        exact ⟨items, items', hitems, hlaid.partitions, hdrop,
          lowers_of_laid haddr name hlaid hdrop⟩
      · exact absurd herr (hrun err)

/-! ## A file with two functions -/

/-- The ELF header of `twoFunctions`. -/
def twoFunctionsEhdr : Ehdr64 :=
  ⟨elfMagic ++ [1, 1, 1] ++ List.replicate 9 0, 1, 3, 1, 0, 0, 105, 0, 52, 32, 0, 40, 4, 3⟩

/-- The headers of a null section, the code, the symbol table and its strings. -/
def twoFunctionsShdrs : List Shdr64 :=
  [⟨0, 0, 0, 0, 0, 0, 0, 0, 0, 0⟩, ⟨0, 1, 6, 0x1000, 52, 16, 0, 0, 1, 0⟩,
    ⟨0, 2, 0, 0, 68, 32, 3, 0, 4, 16⟩, ⟨0, 3, 0, 0, 100, 5, 0, 0, 1, 0⟩]

/-- Sixteen `nop` instructions. -/
def nops : Bytes := List.replicate 16 0x90

/-- A symbol table with `f` of `size` bytes at `0x1000` and `g` of four bytes at `0x1008`. -/
def twoSymbols (size : ℕ) : Bytes :=
  toLe 4 1 ++ toLe 4 0x1000 ++ toLe 4 size ++ [0x12, 0] ++ toLe 2 1 ++
    (toLe 4 3 ++ toLe 4 0x1008 ++ toLe 4 4 ++ [0x12, 0] ++ toLe 2 1)

/-- A 32-bit x86 file with code, a symbol table and no other source of functions. -/
def twoFunctions (size : ℕ) : Elf64File where
  cls := .elf32
  ehdr := twoFunctionsEhdr
  phdrs := []
  shdrs := twoFunctionsShdrs
  section_data := [[], nops, twoSymbols size, [0, 0x66, 0, 0x67, 0]]
  padding := []
  file_size := 265

/-- The image of `twoFunctions`. -/
def twoFunctionsImage (size : ℕ) : Bytes := ((twoFunctions size).writeToVec).getD []

/-- The functions of `twoFunctions`. -/
def twoFunctionsMap (size : ℕ) : FunctionMap :=
  (FunctionMap.new.insert ⟨0x1000, .ofNat size, "f".toList, [.symTab]⟩).insert
    ⟨0x1008, 4, "g".toList, [.symTab]⟩

/-- A lifting that keeps the bytes of a function in one statement. -/
def keepBytes : Lifter Unit := fun _ _ bytes => .ok ⟨[], none, [], [.returnExpr [] bytes]⟩

theorem liftsBack_keepBytes (checks : Bool) (codec : ArchCodec) :
    LiftsBack checks codec keepBytes := by
  intro name addr bytes l hl
  obtain rfl := Except.ok.inj hl
  have hlower : lowerFunctionBytesAt checks codec
      (Lifted.declare ⟨[], none, [], [.returnExpr [] bytes]⟩ name addr) (some addr.toNat) =
      .ok (bytes ++ []) := rfl
  rw [hlower, append_nil]

/-- The header of the code of `twoFunctions`. -/
def textShdr : Shdr64 := ⟨0, 1, 6, 0x1000, 52, 16, 0, 0, 1, 0⟩

theorem parse_twoFunctionsImage :
    Elf64File.parse (twoFunctionsImage 8) = .ok (twoFunctions 8) ∧
      Elf64File.parse (twoFunctionsImage 16) = .ok (twoFunctions 16) :=
  ⟨toOption_eq_some.1 (by decide +kernel), toOption_eq_some.1 (by decide +kernel)⟩

/-- Where `g` follows `f`, the code is cut into `f`, `g` and the rest. -/
theorem buildSectionItems_lowers_twoFunctions :
    ∃ items items', buildSectionItems true keepBytes (twoFunctions 8) 1 textShdr nops
        (twoFunctionsMap 8) = .ok items ∧
      Partitions true bareX86 items 0x1000 0x1010 ∧
      dropRedundantFunctionAddrs true 0x1000 items = some items' ∧
      lowerSectionBytes true bareX86 ".text".toList 0x1000 items' = .ok nops := by
  have hbuild : buildSectionItems true keepBytes (twoFunctions 8) 1 textShdr nops
      (twoFunctionsMap 8) = .ok [
        .function (Lifted.declare ⟨[], none, [], [.returnExpr [] (nops.take 8)]⟩ "f".toList 0x1000),
        .function (Lifted.declare ⟨[], none, [], [.returnExpr [] (nops.take 4)]⟩ "g".toList 0x1008),
        .raw 0x100c (nops.take 4)] := rfl
  refine (buildSectionItems_lowers_iff true bareX86 keepBytes (liftsBack_keepBytes true bareX86)
    (twoFunctionsImage 8) (twoFunctions 8) parse_twoFunctionsImage.1 (twoFunctionsMap 8)
    (by decide) 1 textShdr nops rfl rfl (by decide) (by simp [hbuild]) ".text".toList).2 (.inr ?_)
  exact ⟨0x100c, ⟨by decide, by decide, rfl⟩,
    .inr ⟨by decide, by decide, fun h => absurd h (by decide)⟩, fun _ => rfl⟩

/-- Where `g` lies inside `f`, the cut goes back to the end of `g`: the sixteen bytes of `f`, the
four of `g` and the four behind it. The lowering refuses the items. -/
theorem buildSectionItems_nested_overlaps :
    Elf64File.parse (twoFunctionsImage 16) = .ok (twoFunctions 16) ∧
      discoverFunctions (twoFunctions 16) [] = .ok (twoFunctionsMap 16) ∧
      ∃ items items', buildSectionItems true keepBytes (twoFunctions 16) 1 textShdr nops
          (twoFunctionsMap 16) = .ok items ∧
        ¬Partitions true bareX86 items 0x1000 0x1010 ∧
        dropRedundantFunctionAddrs true 0x1000 items = some items' ∧
        lowerSectionBytes true bareX86 ".text".toList 0x1000 items' =
          fail (.sectionOverlap ".text".toList 0x1010 0x1008) := by
  refine ⟨parse_twoFunctionsImage.2, rfl, _, _, rfl, ?_, rfl, rfl⟩
  intro h
  obtain ⟨part, hpart, h⟩ := partitions_cons.1 h
  obtain ⟨part', hpart', -⟩ := partitions_cons.1 h
  have hf : some (0x1000, nops) = some (0x1000, part) := hpart
  have hg : some (0x1008, nops.take 4) = some (0x1000 + part.length, part') := hpart'
  obtain rfl : nops = part := by simpa using hf
  simp [nops] at hg

end Univdreams.Decompile
