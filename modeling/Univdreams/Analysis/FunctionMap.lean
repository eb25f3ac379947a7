import Univdreams.Elf.File
import Univdreams.Text

/-!
# The map of discovered functions

`FunctionMap` of `src/analysis/function_map.rs`, and `discover_functions` of `src/analysis/mod.rs`
with the symbol tables of `src/analysis/symbols.rs`. Several discovery sources name functions by
address. Records of one address are merged; records of different addresses never influence each
other, except that a function without a size gets the distance to its neighbour.
-/

namespace Univdreams.Analysis

open Elf List

/-- Where a record of a function comes from, by ascending confidence. -/
inductive FunctionSource where
  | prologue
  | entry
  | callSite
  | ehFrame
  | signature
  | plt
  | dynSym
  | symTab
  | userOverride
  deriving DecidableEq, Repr

/-- The confidence of a source. -/
def FunctionSource.rank : FunctionSource → ℕ
  | .prologue => 0
  | .entry => 1
  | .callSite => 2
  | .ehFrame => 3
  | .signature => 4
  | .plt => 5
  | .dynSym => 6
  | .symTab => 7
  | .userOverride => 8

/-- A discovered function. -/
structure Function where
  addr : UInt64
  size : UInt64
  name : Text
  sources : List FunctionSource
  deriving DecidableEq, Repr

namespace Function

/-- The address behind the function, when nothing cuts it off. -/
def stop (f : Function) : ℕ := f.addr.toNat + f.size.toNat

/-- Whether the size is that of a thunk of the linkage table, which is authoritative. -/
def pltAuthoritative (f : Function) : Bool := f.sources.contains .plt && 0 < f.size

/-- The highest confidence among the sources. -/
def confidence (f : Function) : Option ℕ := (f.sources.map FunctionSource.rank).max?

/-- `merge_in`: a record with another one of the same address. -/
def mergeIn (self other : Function) : Function where
  addr := self.addr
  size :=
    if other.pltAuthoritative && !self.pltAuthoritative || 0 < other.size && self.size = 0 then
      other.size
    else self.size
  name := match self.confidence, other.confidence with
    | some existing, some incoming => if existing < incoming then other.name else self.name
    | none, _ => other.name
    | some _, none => self.name
  sources := (other.sources.foldl (fun acc src => if src ∈ acc then acc else acc ++ [src])
    self.sources).insertionSort fun a b => a.rank ≤ b.rank

end Function

/-- The discovered functions in the order of their addresses, one for each address. -/
structure FunctionMap where
  functions : List Function
  sorted : functions.Pairwise fun f g => f.addr < g.addr

/-- Insert a record into functions in order, merging it with one of the same address. -/
def insertFunction (func : Function) : List Function → List Function
  | [] => [func]
  | f :: fs =>
    if func.addr < f.addr then func :: f :: fs
    else if func.addr = f.addr then f.mergeIn func :: fs
    else f :: insertFunction func fs

/-- The addresses after an insertion are the new one and the old ones. -/
theorem mem_insertFunction {func g : Function} : ∀ {fs : List Function},
    g ∈ insertFunction func fs → g.addr = func.addr ∨ ∃ f ∈ fs, g.addr = f.addr
  | [], h => by
    rw [insertFunction, mem_singleton] at h
    exact .inl (by rw [h])
  | f :: fs, h => by
    unfold insertFunction at h
    split_ifs at h with h1 h2
    · rcases mem_cons.1 h with rfl | h
      · exact .inl rfl
      · exact .inr ⟨g, h, rfl⟩
    · rcases mem_cons.1 h with rfl | h
      · exact .inr ⟨f, by simp, rfl⟩
      · exact .inr ⟨g, by simp [h], rfl⟩
    rcases mem_cons.1 h with rfl | h
    · exact .inr ⟨g, by simp, rfl⟩
    rcases mem_insertFunction h with h | ⟨f', hf', h⟩
    · exact .inl h
    · exact .inr ⟨f', by simp [hf'], h⟩

/-- An insertion keeps the order. -/
theorem pairwise_insertFunction (func : Function) : ∀ {fs : List Function},
    (fs.Pairwise fun f g => f.addr < g.addr) →
      (insertFunction func fs).Pairwise fun f g => f.addr < g.addr
  | [], _ => by simp [insertFunction]
  | f :: fs, h => by
    obtain ⟨hf, hfs⟩ := pairwise_cons.1 h
    unfold insertFunction
    split_ifs with h1 h2
    · refine pairwise_cons.2 ⟨forall_mem_cons.2 ⟨h1, fun g hg => ?_⟩, h⟩
      exact UInt64.lt_trans h1 (hf g hg)
    · exact pairwise_cons.2 ⟨hf, hfs⟩
    refine pairwise_cons.2 ⟨fun g hg => ?_, pairwise_insertFunction func hfs⟩
    rcases mem_insertFunction hg with h | ⟨f', hf', h⟩
    · rw [h]
      exact UInt64.lt_of_le_of_ne (UInt64.not_lt.1 h1) (Ne.symm h2)
    · rw [h]
      exact hf f' hf'

namespace FunctionMap

/-- `FunctionMap::new()`. -/
def new : FunctionMap := ⟨[], List.Pairwise.nil⟩

/-- `FunctionMap::insert`. -/
def insert (map : FunctionMap) (func : Function) : FunctionMap :=
  ⟨insertFunction func map.functions, pairwise_insertFunction func map.sorted⟩

/-- `FunctionMap::containing`: the last function that starts up to an address, if the address is
before its saturated end. -/
def containing (map : FunctionMap) (addr : UInt64) : Option Function := do
  let f ← (map.functions.filter fun f => f.addr ≤ addr).getLast?
  if 0 < f.size ∧ addr.toNat < saturatingAdd f.addr.toNat f.size.toNat then some f else none

end FunctionMap

/-! ## Lookup by address -/

/-- The range of a function contains an address. -/
def Function.Covers (f : Function) (a : UInt64) : Prop := f.addr ≤ a ∧ a.toNat < f.stop

instance (f : Function) (a : UInt64) : Decidable (f.Covers a) :=
  inferInstanceAs (Decidable (_ ∧ _))

namespace FunctionMap

variable (map : FunctionMap) (a : UInt64)

/-- The lookup answers exactly when a recorded function covers the address, with one that does. -/
def Finds : Prop :=
  ((map.containing a).isSome ↔ ∃ f ∈ map.functions, f.Covers a) ∧
    ∀ f, map.containing a = some f → f.Covers a

/-- If a function covers the address, one of those that start last does, and the address is not the
highest one. -/
def Unshadowed : Prop :=
  (∃ f ∈ map.functions, f.Covers a) → a.toNat + 1 < wordSize ∧
    ∃ g ∈ map.functions, g.Covers a ∧ ∀ h ∈ map.functions, h.addr ≤ a → h.addr ≤ g.addr

/-- The functions of a map that start before an address have a last one, or there are none. -/
theorem getLast?_filter_cases : (∀ f ∈ map.functions, ¬f.addr ≤ a) ∧ map.containing a = none ∨
      ∃ g ∈ map.functions, g.addr ≤ a ∧
        (∀ h ∈ map.functions, h.addr ≤ a → h = g ∨ h.addr < g.addr) ∧
        map.containing a = if g.Covers a ∧ a.toNat + 1 < wordSize then some g else none := by
  cases hlast : (map.functions.filter fun f => f.addr ≤ a).getLast? with
  | none =>
    have hempty := List.getLast?_eq_none_iff.1 hlast
    refine .inl ⟨fun f hf hle => ?_, by rw [containing, hlast]; rfl⟩
    exact filter_eq_nil_iff.1 hempty f hf (decide_eq_true hle)
  | some g =>
    obtain ⟨before, hsplit⟩ := List.getLast?_eq_some_iff.1 hlast
    have hmem : ∀ h, h ∈ map.functions ∧ h.addr ≤ a ↔ h ∈ before ∨ h = g := fun h => by
      rw [← mem_singleton, ← mem_append, ← hsplit, mem_filter, decide_eq_true_iff]
    obtain ⟨hg, hle⟩ := (hmem g).2 (.inr rfl)
    refine .inr ⟨g, hg, hle, fun h hh hha => ?_, ?_⟩
    · have hsorted := map.sorted.filter fun f => decide (f.addr ≤ a)
      rw [hsplit] at hsorted
      refine ((hmem h).1 ⟨hh, hha⟩).symm.imp id fun hbefore => ?_
      exact (pairwise_append.1 hsorted).2.2 h hbefore g (by simp)
    -- The saturated end is behind the address when the end is, up to the highest address.
    rw [containing, hlast]
    refine if_congr ?_ rfl rfl
    have := a.toNat_lt
    have hword : wordSize = 2 ^ 64 := rfl
    simp only [Function.Covers, Function.stop, saturatingAdd, UInt64.lt_iff_toNat_lt,
      UInt64.le_iff_toNat_le, UInt64.toNat_zero, hword] at hle ⊢
    omega

/-- Lookup is right at exactly the addresses that no later start shadows. -/
theorem finds_iff_unshadowed : map.Finds a ↔ map.Unshadowed a := by
  obtain ⟨hnone, hlookup⟩ | ⟨g, hg, hle, hlast, hlookup⟩ := getLast?_filter_cases map a
  · have hcovers : ¬∃ f ∈ map.functions, f.Covers a := fun ⟨f, hf, hfa⟩ => hnone f hf hfa.1
    simp [Finds, Unshadowed, hlookup, hcovers]
  constructor
  · rintro ⟨hsome, hcovers⟩ hexists
    have hfound := hsome.2 hexists
    rw [hlookup] at hfound
    have hif : g.Covers a ∧ a.toNat + 1 < wordSize := by
      by_contra hif
      simp [hif] at hfound
    refine ⟨hif.2, g, hg, hif.1, fun h hh hha => ?_⟩
    exact (hlast h hh hha).elim (fun heq => heq ▸ UInt64.le_refl _) UInt64.le_of_lt
  intro hshadow
  rw [Finds, hlookup]
  split_ifs with hif
  · exact ⟨by simpa using ⟨g, hg, hif.1⟩, fun f hf => Option.some_injective _ hf ▸ hif.1⟩
  suffices hnone : ¬∃ f ∈ map.functions, f.Covers a by simpa using hnone
  rintro ⟨f, hf, hfa⟩
  -- The function that starts last is the one that the lookup inspects.
  obtain ⟨hmax, g', hg', hcovers, hall⟩ := hshadow ⟨f, hf, hfa⟩
  have hle' := hall g hg hle
  rcases hlast g' hg' hcovers.1 with rfl | hlt
  · exact hif ⟨hcovers, hmax⟩
  · exact absurd hle' (UInt64.not_le.2 hlt)

/-- After any insertions, lookup is right at exactly the addresses that no later start shadows. -/
theorem containing_exact_iff (inserted : List Function) (a : UInt64) :
    (inserted.foldl insert new).Finds a ↔ (inserted.foldl insert new).Unshadowed a :=
  finds_iff_unshadowed _ a

/-- A function within another one hides the rest of it from the lookup. -/
theorem containing_nested : ∃ inserted : List Function,
    ¬(inserted.foldl insert new).Finds 0x1050 := by
  refine ⟨[⟨0x1000, 0x100, [], [.symTab]⟩, ⟨0x1010, 0x10, [], [.symTab]⟩], fun h => ?_⟩
  exact absurd (h.1.2 ⟨⟨0x1000, 0x100, [], [.symTab]⟩, by decide, by decide, by decide⟩) (by decide)

end FunctionMap

/-! ## Sizes from the neighbours -/

variable (elf : Elf64File)

/-- Whether a section header has the executable flag. -/
def isExec (sh : Shdr64) : Bool := sh.sh_flags / 4 % 2 = 1

/-- The start and the end of each executable section that is not empty. -/
def execSections : List (ℕ × ℕ) :=
  ((elf.shdrs.zip elf.section_data).filter fun s => isExec s.1 && 0 < s.1.sh_size).map fun s =>
    (s.1.sh_addr, saturatingAdd s.1.sh_addr s.1.sh_size)

/-- The size of a function without one: the distance to the next function or the section's end. -/
def neighborSize (sections : List (ℕ × ℕ)) (addrs : List UInt64) (addr : UInt64) :
    Option UInt64 := do
  let (_, secEnd) ← sections.find? fun s => s.1 ≤ addr.toNat ∧ addr.toNat < s.2
  let next := ((addrs.filter fun a => addr < a ∧ a.toNat < secEnd).map UInt64.toNat).min?
  return UInt64.ofNat ((next.getD secEnd) - addr.toNat)

/-- `fill_in_sizes_from_neighbors`. -/
def fillInSizesFromNeighbors (map : FunctionMap) (elf : Elf64File) : FunctionMap :=
  let sections := execSections elf
  let addrs := map.functions.map Function.addr
  let zeroSized := (map.functions.filter fun f => f.size = 0).map Function.addr
  zeroSized.foldl (fun m addr => match neighborSize sections addrs addr with
    | none => m
    | some size => m.insert ⟨addr, size, [], []⟩) map

/-! ## Discovery -/

/-- The errors of a symbol table. -/
inductive SymbolError where
  | badEntsize (idx got expected : ℕ)
  | badTableSize (idx size entry : ℕ)
  | badStrtabIndex (idx strtab_idx : ℕ)
  | strtabOutOfBounds (idx sym name strtab_size : ℕ)
  | nameNotUtf8 (idx sym offset : ℕ)
  deriving DecidableEq, Repr

/-- The fields of a symbol that discovery reads. -/
structure Sym where
  st_name : ℕ
  st_info : ℕ
  st_shndx : ℕ
  st_value : ℕ
  st_size : ℕ
  deriving DecidableEq, Repr

/-- The on-disk size of a symbol. -/
def symSize : ElfClass → ℕ
  | .elf32 => 16
  | .elf64 => 24

/-- `parse_sym32` and `parse_sym64`. -/
def parseSym : ElfClass → Bytes → Sym
  | .elf64, chunk => ⟨readLe 4 chunk 0, readLe 1 chunk 4, readLe 2 chunk 6, readLe 8 chunk 8,
      readLe 8 chunk 16⟩
  | .elf32, chunk => ⟨readLe 4 chunk 0, readLe 1 chunk 12, readLe 2 chunk 14, readLe 4 chunk 4,
      readLe 4 chunk 8⟩

/-- `read_strtab_cstring`: the bytes from `offset` up to the next zero. -/
def readStrtabCstring (strtab : Bytes) (offset : ℕ) : Option Bytes :=
  if strtab.length < offset then none
  else
    let tail := strtab.drop offset
    if 0 ∈ tail then some (tail.takeWhile (· ≠ 0)) else none

/-- The function of a symbol, when it is that of a defined function. -/
def functionOfSym (source : FunctionSource) (strtab : Bytes) (idx symIdx : ℕ) (sym : Sym) :
    Except SymbolError (Option Function) :=
  if sym.st_info % 16 ≠ 2 ∧ sym.st_info % 16 ≠ 10 then .ok none
  else if sym.st_shndx = 0 then .ok none
  else match readStrtabCstring strtab sym.st_name with
    | none => .error (.strtabOutOfBounds idx symIdx sym.st_name strtab.length)
    | some bytes => match Text.fromUtf8 bytes with
      | none => .error (.nameNotUtf8 idx symIdx sym.st_name)
      | some name => .ok (some ⟨.ofNat sym.st_value, .ofNat sym.st_size, name, [source]⟩)

/-- `collect_one_table`. -/
def collectOneTable (idx : ℕ) (shdr : Shdr64) (table : Bytes) (source : FunctionSource) :
    Except SymbolError (List Function) := do
  let entrySize := symSize elf.cls
  if shdr.sh_entsize ≠ entrySize then .error (.badEntsize idx shdr.sh_entsize entrySize)
  else if table.length % entrySize ≠ 0 then .error (.badTableSize idx table.length entrySize)
  else match elf.section_data[shdr.sh_link]? with
    | none => .error (.badStrtabIndex idx shdr.sh_link)
    | some strtab =>
      let found ← (List.range (table.length / entrySize)).mapM fun symIdx =>
        functionOfSym source strtab idx symIdx
          (parseSym elf.cls (window table (symIdx * entrySize) entrySize))
      return found.filterMap id

/-- `discover_from_symbol_tables`. -/
def discoverFromSymbolTables : Except SymbolError (List Function) := do
  let tables ← (elf.shdrs.zip elf.section_data).zipIdx.mapM fun ((shdr, table), idx) =>
    if shdr.sh_type = 2 then collectOneTable elf idx shdr table .symTab
    else if shdr.sh_type = 11 then collectOneTable elf idx shdr table .dynSym
    else return []
  return tables.flatten

/-- `discover_entry_point`. -/
def discoverEntryPoint : List Function :=
  if elf.ehdr.e_entry = 0 then []
  else
    let name := if elf.ehdr.e_machine = 247 ∨ elf.ehdr.e_machine = 263 then "entry_point"
      else "_start"
    [⟨.ofNat elf.ehdr.e_entry, 0, name.toList, [.entry]⟩]

/-- `discover_functions`. `scanned` are the functions found in unwind information, at call sites, by
signatures and in the linkage table, in this order. -/
def discoverFunctions (scanned : List Function) : Except SymbolError FunctionMap := do
  let symbols ← discoverFromSymbolTables elf
  let map := (discoverEntryPoint elf ++ scanned ++ symbols).foldl FunctionMap.insert .new
  return fillInSizesFromNeighbors map elf

end Univdreams.Analysis
