import Univdreams.Emulator.Machine

/-!
# Guest memory as a flat array

The page table of `src/emulator/emulator/mmu.rs` is to the guest an array of `2 ^ 32` cells, each of
them unmapped or a byte with its permissions. `MemOp.onCell` says what an operation does to a cell,
and `memory_flat` that the page table does it to every cell, over any history.

A store of several bytes checks the page of each byte when it comes to it. `storeBytes_cases` says
what it leaves: the bytes up to the first that cannot be written. So a store that faults has changed
memory exactly when a byte before the fault was new (`stores_atomic_iff`).
-/

namespace Univdreams.Emulator

/-! ## Mapping -/

/-- `Perm`. -/
structure Perm where
  read : Bool
  write : Bool
  exec : Bool
  deriving DecidableEq, Repr

/-- The permissions of a page. -/
def Page.perm (page : Page) : Perm := ⟨page.readable, page.writable, page.executable⟩

/-- A page with other permissions. -/
def Page.withPerm (page : Page) (perm : Perm) : Page :=
  ⟨perm.read, perm.write, perm.exec, page.bytes⟩

/-- `Page::zeroed`. -/
def Page.zeroed (perm : Perm) : Page := ⟨perm.read, perm.write, perm.exec, fun _ => 0⟩

/-- A page with another byte. -/
def Page.put (page : Page) (off : BitVec 12) (b : UInt8) : Page :=
  { page with bytes := Function.update page.bytes off b }

namespace Mmu

/-- The pages that `map`, `map_zeroed` and `unmap` go over. -/
def InRange (addr size : BitVec 32) (p : BitVec 20) : Prop :=
  size ≠ 0 ∧ addr.toNat / 2 ^ 12 ≤ p.toNat ∧
    p.toNat < (addr.toNat + size.toNat + (2 ^ 12 - 1)) / 2 ^ 12

instance (addr size : BitVec 32) (p : BitVec 20) : Decidable (InRange addr size p) :=
  inferInstanceAs (Decidable (_ ∧ _ ∧ _))

/-- Change the pages of a range. -/
def onRange (mmu : Mmu) (addr size : BitVec 32) (f : Option Page → Option Page) : Mmu :=
  ⟨fun p => if InRange addr size p then f (mmu.pages p) else mmu.pages p⟩

/-- `map`: the bytes of a page that is there are kept. -/
def map (mmu : Mmu) (addr size : BitVec 32) (perm : Perm) : Mmu :=
  mmu.onRange addr size fun page => some ((page.map (·.withPerm perm)).getD (.zeroed perm))

/-- `map_zeroed`. -/
def mapZeroed (mmu : Mmu) (addr size : BitVec 32) (perm : Perm) : Mmu :=
  mmu.onRange addr size fun _ => some (.zeroed perm)

/-- `unmap`. -/
def unmap (mmu : Mmu) (addr size : BitVec 32) : Mmu := mmu.onRange addr size fun _ => none

/-- `set_perm`, which panics on a page that is not mapped. -/
def setPerm (mmu : Mmu) (addr : BitVec 32) (perm : Perm) : Option Mmu :=
  (mmu.pages (pageOf addr)).map fun page =>
    ⟨Function.update mmu.pages (pageOf addr) (some (page.withPerm perm))⟩

/-- `put_byte_raw`. -/
def putByteRaw (mmu : Mmu) (addr : BitVec 32) (value : UInt8) : Except Trap Mmu :=
  match mmu.pages (pageOf addr) with
  | none => .error (.memoryFault addr)
  | some page => .ok ⟨Function.update mmu.pages (pageOf addr)
      (some (page.put (offsetOf addr) value))⟩

/-- `write_initializer`, as far as it succeeds. -/
def writeInitializer (mmu : Mmu) : Bytes → BitVec 32 → Except Trap Mmu
  | [], _ => .ok mmu
  | b :: data, addr => do
    let mmu ← mmu.putByteRaw addr b
    mmu.writeInitializer data (addr + 1)

end Mmu

/-- `write`: a store of each byte. -/
def write (addr : BitVec 32) (data : Bytes) : Exec Unit := storeBytes data addr

/-! ## Cells -/

/-- A byte of mapped memory with its permissions. -/
@[ext]
structure Cell where
  perm : Perm
  byte : UInt8
  deriving DecidableEq, Repr

/-- The cell at `x` behind bytes that are written from `addr` on. -/
def Cell.overwrite (x : BitVec 32) (c : Cell) : Bytes → BitVec 32 → Cell
  | [], _ => c
  | b :: bytes, addr => overwrite x (if x = addr then { c with byte := b } else c) bytes (addr + 1)

namespace Mmu

variable {mmu mmu' : Mmu} {addr x : BitVec 32} {bytes : Bytes} {b : UInt8}

/-- The cell at an address. -/
def cell (mmu : Mmu) (x : BitVec 32) : Option Cell :=
  (mmu.pages (pageOf x)).map fun page => ⟨page.perm, page.bytes (offsetOf x)⟩

/-- The address is mapped and may be written. -/
def Writable (mmu : Mmu) (addr : BitVec 32) : Prop :=
  ∃ c, mmu.cell addr = some c ∧ c.perm.write = true

/-- The address `i` bytes behind another one, around the end of the address space. -/
def behind (addr : BitVec 32) (i : ℕ) : BitVec 32 := addr + BitVec.ofNat 32 i

@[simp] theorem behind_zero (addr : BitVec 32) : behind addr 0 = addr := by simp [behind]

theorem behind_succ (addr : BitVec 32) (i : ℕ) : behind (addr + 1) i = behind addr (i + 1) := by
  unfold behind
  bv_omega

/-- An address is its page and its offset. -/
theorem eq_of_pageOf_of_offsetOf (hpage : pageOf x = pageOf addr)
    (hoff : offsetOf x = offsetOf addr) :
    x = addr := by
  apply BitVec.eq_of_toNat_eq
  have hpage := congrArg BitVec.toNat hpage
  have hoff := congrArg BitVec.toNat hoff
  simp only [pageOf, offsetOf, BitVec.extractLsb'_toNat, Nat.shiftRight_eq_div_pow] at hpage hoff
  omega

/-- A byte that is put into a page changes one cell. -/
theorem cell_put {page : Page} (hpage : mmu.pages (pageOf addr) = some page) :
    cell ⟨Function.update mmu.pages (pageOf addr) (some (page.put (offsetOf addr) b))⟩ x =
      (mmu.cell x).map fun c => if x = addr then { c with byte := b } else c := by
  unfold cell
  by_cases hp : pageOf x = pageOf addr
  · by_cases ho : offsetOf x = offsetOf addr
    · obtain rfl := eq_of_pageOf_of_offsetOf hp ho
      simp [hpage, Page.put, Page.perm]
    · have hne : x ≠ addr := fun h => ho (by rw [h])
      simp [hp, ho, hne, hpage, Page.put, Page.perm]
  · have hne : x ≠ addr := fun h => hp (by rw [h])
    simp [hp, hne, Function.comp_def]

theorem putByte_cases (mmu : Mmu) (addr : BitVec 32) (b : UInt8) :
    (mmu.Writable addr ∧ ∃ mmu', mmu.putByte addr b = .ok mmu' ∧ ∀ x,
      mmu'.cell x = (mmu.cell x).map fun c => if x = addr then { c with byte := b } else c) ∨
    ¬mmu.Writable addr ∧ ∃ trap, mmu.putByte addr b = .error trap := by
  unfold putByte Writable cell
  cases hpage : mmu.pages (pageOf addr) with
  | none => exact .inr ⟨by simp, _, rfl⟩
  | some page =>
    cases hw : page.writable with
    | false => exact .inr ⟨by simp [Page.perm, hw], _, by simp [hw]; rfl⟩
    | true =>
      exact .inl ⟨⟨_, rfl, hw⟩, _, if_pos hw, fun x => cell_put hpage⟩

/-- Up to a whole turn of the address space, a cell holds the byte that was written to it. -/
theorem overwrite_eq (bytes : Bytes) : ∀ (c : Cell) (addr : BitVec 32), bytes.length ≤ 2 ^ 32 →
    c.overwrite x bytes addr = { c with byte := bytes.getD (x - addr).toNat c.byte } := by
  induction bytes with
  | nil => simp [Cell.overwrite]
  | cons b bytes ih =>
    intro c addr hlen
    rw [List.length_cons] at hlen
    rw [Cell.overwrite, ih _ _ (by omega)]
    by_cases hx : x = addr
    · subst hx
      have hlast : bytes[(x - (x + 1)).toNat]? = none := List.getElem?_eq_none (by bv_omega)
      rw [if_pos rfl, List.getD_eq_getElem?_getD, hlast, BitVec.sub_self]
      rfl
    · have hnear : (x - addr).toNat = (x - (addr + 1)).toNat + 1 := by bv_omega
      simp [hx, hnear]

end Mmu

open Mmu

/-! ## Stores that fault -/

variable {m m' : Machine} {addr x : BitVec 32} {bytes : Bytes}

/-- A store writes the bytes up to the first that cannot be written. -/
theorem storeBytes_cases (bytes : Bytes) : ∀ (m : Machine) (addr : BitVec 32), ∃ k m',
    (∀ l < k, m.mmu.Writable (behind addr l)) ∧
    (∀ x, m'.mmu.cell x = (m.mmu.cell x).map fun c => c.overwrite x (bytes.take k) addr) ∧
    (k = bytes.length ∧ storeBytes bytes addr m = .ok () m' ∨ k < bytes.length ∧
      ¬m.mmu.Writable (behind addr k) ∧ ∃ trap,
        storeBytes bytes addr m = .error (.err trap) m') := by
  induction bytes with
  | nil => exact fun m addr => ⟨0, m, by simp, by simp [Cell.overwrite], .inl ⟨rfl, rfl⟩⟩
  | cons b bytes ih =>
    intro m addr
    obtain ⟨hw, mmu', hput, hcell⟩ | ⟨hw, trap, hput⟩ := putByte_cases m.mmu addr b
    · obtain ⟨k, m', hbefore, hcells, hend⟩ := ih { m with mmu := mmu' } (addr + 1)
      have hkept : ∀ {x}, mmu'.Writable x ↔ m.mmu.Writable x := fun {x} => by
        simp only [Writable, hcell, Option.map_eq_some_iff]
        by_cases hx : x = addr <;> simp [hx]
      have hrun : storeBytes (b :: bytes) addr m =
          storeBytes bytes (addr + 1) { m with mmu := mmu' } := by
        simp only [storeBytes, readMem, Prog.ofExcept, bind, EStateM.bind, get, getThe,
          MonadStateOf.get, EStateM.get, hput]
        rfl
      refine ⟨k + 1, m', fun l hl => ?_, fun x => ?_, ?_⟩
      · cases l with
        | zero => simpa using hw
        | succ l => exact behind_succ addr l ▸ hkept.1 (hbefore l (by omega))
      · rw [hcells, hcell, Option.map_map]
        rfl
      · rw [hrun, ← behind_succ, ← hkept]
        simpa using hend
    · refine ⟨0, m, by simp, by simp [Cell.overwrite], .inr ⟨by simp, by simpa using hw, trap, ?_⟩⟩
      simp only [storeBytes, readMem, Prog.ofExcept, bind, EStateM.bind, get, getThe,
        MonadStateOf.get, EStateM.get, hput]
      rfl

/-- A new byte comes before one that cannot be written, with all before it writable. -/
def Torn (mmu : Mmu) (bytes : Bytes) (addr : BitVec 32) : Prop :=
  ∃ i j, i < j ∧ j < bytes.length ∧ (∀ l < j, mmu.Writable (behind addr l)) ∧
    ¬mmu.Writable (behind addr j) ∧ (mmu.cell (behind addr i)).map Cell.byte ≠ bytes[i]?

/-- When the program faults, memory is as before. -/
def Atomic (m : Machine) (p : Exec Unit) : Prop :=
  ∀ e m', p m = .error e m' → ∀ x, m'.mmu.cell x = m.mmu.cell x

/-- A store is all or nothing exactly if it is not torn. -/
theorem atomic_storeBytes_iff (m : Machine) (bytes : Bytes) (addr : BitVec 32) :
    Atomic m (storeBytes bytes addr) ↔ ¬Torn m.mmu bytes addr := by
  obtain ⟨k, m', hbefore, hcells, ⟨rfl, hok⟩ | ⟨hlt, hstop, trap, hrun⟩⟩ :=
  storeBytes_cases bytes m addr
  · refine iff_of_true (fun e m' h => by simp [hok] at h) ?_
    rintro ⟨i, j, -, hj, -, hfault, -⟩
    exact hfault (hbefore j hj)
  -- Behind a whole turn of the address space no fault is left.
  have hturn : k < 2 ^ 32 := by
    by_contra hle
    have heq : behind addr k = behind addr (k - 2 ^ 32) := by
      unfold behind
      bv_omega
    rw [heq] at hstop
    exact hstop (hbefore _ (by omega))
  have htake : (bytes.take k).length = k := by simp [hlt.le]
  have hcell : ∀ x c, m.mmu.cell x = some c → (m'.mmu.cell x = m.mmu.cell x ↔
      (bytes.take k).getD (x - addr).toNat c.byte = c.byte) := fun x c hc => by
    rw [hcells, hc, Option.map_some, overwrite_eq _ _ _ (by omega), Option.some_inj, Cell.ext_iff]
    exact and_iff_right rfl
  constructor
  · rintro hatomic ⟨i, j, hij, hj, hj', hfault, hnew⟩
    obtain rfl : k = j := le_antisymm (not_lt.1 fun h => hfault (hbefore j h))
      (not_lt.1 fun h => hstop (hj' k h))
    obtain ⟨c, hc, -⟩ := hbefore i hij
    have hoff : (behind addr i - addr).toNat = i := by
      unfold behind
      bv_omega
    have hsame := (hcell _ c hc).1 (hatomic _ _ hrun _)
    rw [hoff, List.getD_eq_getElem?_getD, List.getElem?_take_of_lt hij] at hsame
    rw [hc, Option.map_some, List.getElem?_eq_getElem (hij.trans hj)] at hnew
    rw [List.getElem?_eq_getElem (hij.trans hj)] at hsame
    exact hnew (congrArg some hsame.symm)
  · intro htorn e m'' hm x
    obtain ⟨-, rfl⟩ : _ ∧ m' = m'' := by simpa [hrun] using hm
    cases hc : m.mmu.cell x with
    | none => rw [hcells, hc, Option.map_none]
    | some c =>
      rw [← hc, hcell x c hc, List.getD_eq_getElem?_getD]
      by_cases hx : (x - addr).toNat < k
      · rw [List.getElem?_take_of_lt hx]
        by_contra hnew
        have hself : behind addr (x - addr).toNat = x := by
          unfold behind
          bv_omega
        refine htorn ⟨_, k, hx, hlt, hbefore, hstop, fun heq => hnew ?_⟩
        rw [hself, hc, Option.map_some] at heq
        rw [← heq, Option.getD_some]
      · rw [List.getElem?_eq_none (by omega), Option.getD_none]

/-- **Faulting stores.** A store of any width, or of a slice, leaves memory as it was in the case of
a fault exactly when no new byte comes before the first that cannot be written. -/
theorem stores_atomic_iff (m : Machine) (addr : BitVec 32) :
    (∀ (w : ℕ) (v : BitVec w), Atomic m (store w addr v) ↔
      ¬Torn m.mmu (toLe (w / 8) v.toNat) addr) ∧
      ∀ data, Atomic m (write addr data) ↔ ¬Torn m.mmu data addr :=
  ⟨fun _ _ => atomic_storeBytes_iff m _ addr, fun data => atomic_storeBytes_iff m data addr⟩

/-- A page that may be read and written, with zeros, and nothing behind it. -/
def onePage : Machine where
  regs := ⟨fun _ => 0, 0, ⟨false, false, false, false, false, false, false, false⟩, fun _ => 0, 0⟩
  code16 := false
  opSize16 := false
  addrSize16 := false
  segOverride := none
  curDefaultSeg := .ds
  segBase _ := 0
  mmu := Mmu.map ⟨fun _ => none⟩ 0 0x1000 ⟨true, true, false⟩

/-- A word across the end of the page is written by half. -/
theorem store16_tears : ¬Atomic onePage (store 16 0xfff 0x101) := by
  intro h
  have hcell := h _ _ rfl 0xfff
  revert hcell
  decide

/-! ## Histories -/

/-- The operations on memory. -/
inductive MemOp where
  | map (addr size : BitVec 32) (perm : Perm)
  | mapZeroed (addr size : BitVec 32) (perm : Perm)
  | unmap (addr size : BitVec 32)
  | setPerm (addr : BitVec 32) (perm : Perm)
  | writeInitializer (addr : BitVec 32) (data : Bytes)
  | store (w : ℕ) (addr : BitVec 32) (v : BitVec w)

/-- The machine after an operation that succeeds. -/
def MemOp.run (m : Machine) : MemOp → Option Machine
  | .map addr size perm => some { m with mmu := m.mmu.map addr size perm }
  | .mapZeroed addr size perm => some { m with mmu := m.mmu.mapZeroed addr size perm }
  | .unmap addr size => some { m with mmu := m.mmu.unmap addr size }
  | .setPerm addr perm => (m.mmu.setPerm addr perm).map fun mmu => { m with mmu }
  | .writeInitializer addr data => (m.mmu.writeInitializer data addr).toOption.map fun mmu =>
      { m with mmu }
  | .store w addr v => match Emulator.store w addr v m with
    | .ok _ m' => some m'
    | .error _ _ => none

/-- What an operation does to the cell at `x` of a flat memory. -/
def MemOp.onCell (x : BitVec 32) (c : Option Cell) : MemOp → Option Cell
  | .map addr size perm =>
    if InRange addr size (pageOf x) then some ⟨perm, (c.map Cell.byte).getD 0⟩ else c
  | .mapZeroed addr size perm => if InRange addr size (pageOf x) then some ⟨perm, 0⟩ else c
  | .unmap addr size => if InRange addr size (pageOf x) then none else c
  | .setPerm addr perm => if pageOf x = pageOf addr then c.map ({ · with perm }) else c
  | .writeInitializer addr data => c.map fun c => c.overwrite x data addr
  | .store w addr v => c.map fun c => c.overwrite x (toLe (w / 8) v.toNat) addr

/-- The cell at `x` of a flat memory after a history. -/
def flat (m : Machine) (ops : List MemOp) (x : BitVec 32) : Option Cell :=
  ops.foldl (MemOp.onCell x) (m.mmu.cell x)

/-- An initializer overwrites the cells of its range. -/
theorem cell_writeInitializer (data : Bytes) : ∀ {mmu mmu' : Mmu} {addr : BitVec 32},
    mmu.writeInitializer data addr = .ok mmu' →
      mmu'.cell x = (mmu.cell x).map fun c => c.overwrite x data addr := by
  induction data with
  | nil =>
    intro mmu mmu' addr h
    obtain rfl := Except.ok.inj h
    simp [Cell.overwrite]
  | cons b data ih =>
    intro mmu mmu' addr h
    obtain ⟨mmu1, hput, h⟩ := Prog.except_bind_eq_ok.1 h
    unfold putByteRaw at hput
    cases hpage : mmu.pages (pageOf addr) with
    | none => simp [hpage] at hput
    | some page =>
      rw [hpage] at hput
      obtain rfl := Except.ok.inj hput
      rw [ih h, cell_put hpage, Option.map_map]
      rfl

theorem cell_store {w : ℕ} {v : BitVec w} (h : store w addr v m = .ok () m') (x : BitVec 32) :
    m'.mmu.cell x = (m.mmu.cell x).map fun c => c.overwrite x (toLe (w / 8) v.toNat) addr := by
  obtain ⟨k, m'', -, hcells, ⟨rfl, hok⟩ | ⟨-, -, trap, hrun⟩⟩ :=
    storeBytes_cases (toLe (w / 8) v.toNat) m addr
  · obtain ⟨-, rfl⟩ := EStateM.Result.ok.inj (hok.symm.trans h)
    rw [hcells, List.take_length]
  · cases hrun.symm.trans h

/-- The page table does to every cell what the operation does to it. -/
theorem MemOp.cell_run {op : MemOp} (h : op.run m = some m') (x : BitVec 32) :
    m'.mmu.cell x = op.onCell x (m.mmu.cell x) := by
  cases op with
  | map addr size perm =>
    obtain rfl := Option.some.inj h
    simp only [onCell, cell, Mmu.map, onRange]
    split_ifs
    · cases m.mmu.pages (pageOf x) <;> rfl
    · rfl
  | mapZeroed addr size perm =>
    obtain rfl := Option.some.inj h
    simp only [onCell, cell, Mmu.mapZeroed, onRange]
    split_ifs <;> rfl
  | unmap addr size =>
    obtain rfl := Option.some.inj h
    simp only [onCell, cell, Mmu.unmap, onRange]
    split_ifs <;> rfl
  | setPerm addr perm =>
    obtain ⟨mmu, hmmu, rfl⟩ := Option.map_eq_some_iff.1 h
    obtain ⟨page, hpage, rfl⟩ := Option.map_eq_some_iff.1 hmmu
    simp only [onCell, cell]
    by_cases hx : pageOf x = pageOf addr
    · simp [hx, hpage, Page.withPerm, Page.perm]
    · simp [hx]
  | writeInitializer addr data =>
    obtain ⟨mmu, hmmu, rfl⟩ := Option.map_eq_some_iff.1 h
    cases hdata : m.mmu.writeInitializer data addr with
    | error trap => simp [hdata, Except.toOption] at hmmu
    | ok mmu' =>
      obtain rfl : mmu' = mmu := by simpa [hdata, Except.toOption] using hmmu
      exact cell_writeInitializer data hdata
  | store w addr v =>
    unfold run at h
    cases hrun : Emulator.store w addr v m with
    | error e m'' => simp [hrun] at h
    | ok u m'' =>
      obtain rfl : m'' = m' := by simpa [hrun] using h
      exact cell_store hrun x

theorem cell_foldlM (x : BitVec 32) : ∀ (ops : List MemOp) {m m' : Machine},
    ops.foldlM MemOp.run m = some m' → m'.mmu.cell x = flat m ops x
  | [], m, m', h => by
    obtain rfl := Option.some.inj h
    rfl
  | op :: ops, m, m', h => by
    rw [List.foldlM_cons] at h
    obtain ⟨m1, hop, h⟩ := Option.bind_eq_some_iff.1 h
    rw [cell_foldlM x ops h, flat, MemOp.cell_run hop x]
    rfl

theorem fetchByte_eq_ok {mmu : Mmu} {b : UInt8} : mmu.fetchByte addr = .ok b ↔
    ∃ c, mmu.cell addr = some c ∧ c.perm.read = true ∧ c.byte = b := by
  unfold fetchByte cell
  cases mmu.pages (pageOf addr) with
  | none => simp
  | some page =>
    by_cases hr : page.readable = true <;> simp [hr, Page.perm]

/-- Bytes are read one by one from consecutive addresses. -/
theorem readBytes_eq_ok {fetch : BitVec 32 → Except Trap UInt8} (n : ℕ) :
    ∀ {addr : BitVec 32} {bytes : Bytes}, readBytes fetch n addr = .ok bytes ↔
      bytes.length = n ∧ ∀ i b, bytes[i]? = some b → fetch (behind addr i) = .ok b := by
  induction n with
  | zero =>
    intro addr bytes
    simp only [readBytes, Except.ok.injEq, List.length_eq_zero_iff]
    constructor
    · rintro rfl
      simp
    · exact fun h => h.1.symm
  | succ n ih =>
    intro addr bytes
    simp only [readBytes, Prog.except_bind_eq_ok, ih]
    constructor
    · rintro ⟨b, hb, rest, ⟨hlen, hrest⟩, h⟩
      obtain rfl := Except.ok.inj h
      refine ⟨by simp [hlen], fun i b' hi => ?_⟩
      cases i with
      | zero => simpa [← Option.some.inj hi] using hb
      | succ i => exact behind_succ addr i ▸ hrest i b' hi
    rintro ⟨hlen, h⟩
    obtain ⟨b, rest, rfl⟩ := List.exists_cons_of_length_eq_add_one hlen
    refine ⟨b, by simpa using h 0 b rfl, rest, ⟨by simpa using hlen, fun i b' hi => ?_⟩, rfl⟩
    exact behind_succ addr i ▸ h (i + 1) b' hi

/-- **Flat memory.** After any history of operations that succeed, a load succeeds exactly when all
of its cells are mapped and readable, and returns their bytes. A store that succeeds changes the
bytes that it covers and nothing else. -/
theorem memory_flat (m m' : Machine) (ops : List MemOp) (h : ops.foldlM MemOp.run m = some m')
    (w : ℕ) (hw : w ∈ [8, 16, 32, 64]) (addr : BitVec 32) : ((∃ v, m'.mmu.load w addr = .ok v) ↔
      ∀ i < w / 8, ∃ c, flat m ops (behind addr i) = some c ∧ c.perm.read = true) ∧
    (∀ v, m'.mmu.load w addr = .ok v → ∃ bytes : Bytes, bytes.length = w / 8 ∧
      v = BitVec.ofNat w (ofLe bytes) ∧
      ∀ i < w / 8, (flat m ops (behind addr i)).map Cell.byte = bytes[i]?) ∧
    ∀ v m'', store w addr v m' = .ok () m'' → ∀ x, m''.mmu.cell x = (m'.mmu.cell x).map fun c =>
      { c with byte := (toLe (w / 8) v.toNat).getD (x - addr).toNat c.byte } := by
  have hload : ∀ {v}, m'.mmu.load w addr = .ok v ↔ ∃ bytes : Bytes, (bytes.length = w / 8 ∧
      ∀ i b, bytes[i]? = some b → ∃ c, flat m ops (behind addr i) = some c ∧ c.perm.read = true ∧
        c.byte = b) ∧ v = BitVec.ofNat w (ofLe bytes) := by
    intro v
    simp only [load, Prog.except_bind_eq_ok, readBytes_eq_ok, fetchByte_eq_ok, cell_foldlM _ ops h]
    exact exists_congr fun bytes => and_congr_right fun _ => ⟨fun h => (Except.ok.inj h).symm,
      fun h => congrArg Except.ok h.symm⟩
  refine ⟨⟨?_, fun hcells => ?_⟩, fun v hv => ?_, fun v m'' hstore x => ?_⟩
  · rintro ⟨v, hv⟩ i hi
    obtain ⟨bytes, ⟨hlen, hbytes⟩, -⟩ := hload.1 hv
    obtain ⟨c, hc, hr, -⟩ := hbytes i _ (List.getElem?_eq_getElem (hlen ▸ hi))
    exact ⟨c, hc, hr⟩
  · refine ⟨_, hload.2 ⟨(List.range (w / 8)).map fun i =>
      ((flat m ops (behind addr i)).map Cell.byte).getD 0, ⟨by simp, fun i b hb => ?_⟩, rfl⟩⟩
    have hi : i < w / 8 := by simpa using (List.getElem?_eq_some_iff.1 hb).1
    obtain ⟨c, hc, hr⟩ := hcells i hi
    rw [List.getElem?_map, List.getElem?_range hi, Option.map_some, hc] at hb
    exact ⟨c, hc, hr, Option.some.inj hb⟩
  · obtain ⟨bytes, ⟨hlen, hbytes⟩, rfl⟩ := hload.1 hv
    refine ⟨bytes, hlen, rfl, fun i hi => ?_⟩
    obtain ⟨c, hc, -, hb⟩ := hbytes i _ (List.getElem?_eq_getElem (hlen ▸ hi))
    rw [hc, Option.map_some, hb, List.getElem?_eq_getElem]
  · rw [cell_store hstore]
    refine congrArg (Option.map · _) (funext fun c => overwrite_eq _ c addr ?_)
    have hwidth : ∀ w ∈ [8, 16, 32, 64], w / 8 ≤ 2 ^ 32 := by decide
    rw [length_toLe]
    exact hwidth w hw

/-- A second page is mapped, a word stored across the end of the first one, and the second made
read-only. -/
def acrossPages : List MemOp :=
  [.map 0x1000 0x1000 ⟨true, true, false⟩, .store 32 0xffe 0x44332211,
    .setPerm 0x1000 ⟨true, false, false⟩]

/-- The word across the pages is loaded again, and what is stored in the first page changes that. -/
theorem memory_flat_acrossPages : (acrossPages.foldlM MemOp.run onePage).isSome ∧
    ∀ m', acrossPages.foldlM MemOp.run onePage = some m' →
      m'.mmu.load 32 0xffe = .ok 0x44332211 ∧
      ∀ m'', store 32 0x10 0x88776655 m' = .ok () m'' →
        ∀ x, m''.mmu.cell x = (m'.mmu.cell x).map fun c =>
          { c with byte := (toLe 4 0x88776655).getD (x - 0x10).toNat c.byte } := by
  refine ⟨rfl, fun m' h => ⟨?_, ?_⟩⟩
  · obtain ⟨hload, hbytes, -⟩ := memory_flat onePage m' acrossPages h 32 (by decide) 0xffe
    obtain ⟨v, hv⟩ := hload.2 fun i hi => by interval_cases i <;> exact ⟨_, rfl, rfl⟩
    obtain ⟨bytes, hlen, rfl, hcells⟩ := hbytes v hv
    -- The cells of the flat memory are the bytes of the word.
    have hflat : bytes = [0x11, 0x22, 0x33, 0x44] := by
      refine List.ext_getElem? fun i => ?_
      by_cases hi : i < 4
      · rw [← hcells i hi]
        interval_cases i <;> rfl
      · rw [List.getElem?_eq_none (by omega), List.getElem?_eq_none (by simpa using hi)]
    rw [hv, hflat]
    rfl
  · obtain ⟨-, -, hstore⟩ := memory_flat onePage m' acrossPages h 32 (by decide) 0x10
    exact hstore 0x88776655

end Univdreams.Emulator
