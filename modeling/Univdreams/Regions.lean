import Univdreams.Bytes
import Univdreams.Tiling

/-!
# The structured regions of an image and the padding between them

The ELF and the Mach-O readers cut an image into structured regions, sort these by their start, and
keep every byte outside of them as padding. `computePadding` is the function that both define.
`computePadding_eq` says what it returns: the gaps that the regions leave, each with the bytes of
the image at its place.
-/

namespace Univdreams

variable {bytes : Bytes}

/-- A part of the file that a reader tracks by interpretation: the positions `start..stop`. -/
structure Region where
  label : String
  start : ℕ
  stop : ℕ
  deriving DecidableEq, Repr

namespace Region

/-- The positions of the region. -/
def extent (r : Region) : Extent := ⟨r.start, r.stop - r.start⟩

/-- `regions.sort_by_key(|r| r.range.start)`, which is stable. -/
def sortByStart (regions : List Region) : List Region :=
  regions.insertionSort fun a b => a.start ≤ b.start

theorem sortByStart_perm (regions : List Region) : (sortByStart regions).Perm regions :=
  List.perm_insertionSort _ _

end Region

/-- The padding chunk from `cursor` up to `stop`, when there is one. -/
def paddingChunk (bytes : Bytes) (cursor stop : ℕ) : Option (List (ℕ × Bytes)) :=
  if stop > cursor then do
    let chunk ← slice bytes cursor stop
    return [(cursor, chunk)]
  else return []

/-- The padding that remains from `cursor` on, in the order of the file. -/
def paddingFrom (bytes : Bytes) (cursor : ℕ) : List Region → Option (List (ℕ × Bytes))
  | [] => paddingChunk bytes cursor bytes.length
  | r :: rs => do
    let before ← paddingChunk bytes cursor r.start
    let after ← paddingFrom bytes (max cursor r.stop) rs
    return before ++ after

/-- The bytes in the gaps between the regions, with their offsets. -/
def computePadding (bytes : Bytes) (regions : List Region) : Option (List (ℕ × Bytes)) :=
  paddingFrom bytes 0 regions

/-- The bytes of an image at an extent, with its offset. -/
def chunkAt (bytes : Bytes) (x : Extent) : ℕ × Bytes := (x.start, window bytes x.start x.len)

theorem paddingChunk_eq {a b : ℕ} (hb : b ≤ bytes.length) :
    paddingChunk bytes a b = some ((gap a b).map (chunkAt bytes)) := by
  unfold paddingChunk gap
  split_ifs with h
  · have hs : slice bytes a b = some (window bytes a (b - a)) := by
      rw [slice_eq_some]
      exact ⟨⟨by omega, hb⟩, rfl⟩
    simp [hs, chunkAt]
  · rfl

/-- The padding from a cursor on is the gaps of the regions with their bytes, if the regions start
inside the file. -/
theorem paddingFrom_eq : ∀ {regions : List Region} {cursor : ℕ},
    (∀ r ∈ regions, r.start ≤ r.stop ∧ r.start ≤ bytes.length) →
    paddingFrom bytes cursor regions =
      some ((gaps cursor (regions.map Region.extent) bytes.length).map (chunkAt bytes))
  | [], cursor, _ => paddingChunk_eq le_rfl
  | r :: rs, cursor, h => by
    obtain ⟨hr, hlen⟩ := h r (by simp)
    have hstop : r.extent.stop = r.stop := by simp only [Region.extent, Extent.stop]; omega
    have ih : paddingFrom bytes (max cursor r.stop) rs = _ :=
      paddingFrom_eq fun s hs => h s (by simp [hs])
    rw [paddingFrom, paddingChunk_eq hlen, ih, List.map_cons, gaps, hstop]
    simp [Region.extent]

theorem computePadding_eq {regions : List Region}
    (h : ∀ r ∈ regions, r.start ≤ r.stop ∧ r.start ≤ bytes.length) :
    computePadding bytes regions =
      some ((gaps 0 (regions.map Region.extent) bytes.length).map (chunkAt bytes)) :=
  paddingFrom_eq h

/-- The padding of a reader whose regions are, in some order, places inside the image. -/
theorem padding_eq {ε : Type} {regions : List Region} {exts : List Extent}
    {padding : List (ℕ × Bytes)} (hperm : (regions.map Region.extent).Perm exts)
    (hle : ∀ r ∈ regions, r.start ≤ r.stop) (hin : ∀ x ∈ exts, x.stop ≤ bytes.length)
    (h : (orPanic (computePadding bytes regions) : Run ε _) = .ok padding) :
    padding = (gaps 0 (regions.map Region.extent) bytes.length).map (chunkAt bytes) := by
  have hstart : ∀ r ∈ regions, r.start ≤ r.stop ∧ r.start ≤ bytes.length := by
    intro r hr
    have hstop := hin _ (hperm.mem_iff.1 (List.mem_map_of_mem hr))
    exact ⟨hle r hr, (Nat.le_add_right _ _).trans hstop⟩
  have hpad := orPanic_eq_ok.1 h
  rw [computePadding_eq hstart, Option.some.injEq] at hpad
  exact hpad.symm

/-- The header of an image, written over its place. -/
theorem lays_head {b : Bytes} {n : ℕ} {w : Bytes → Option Bytes} (h : n ≤ b.length)
    (hw : ∀ part : Bytes, part.length = n → w part = some (window b 0 n)) :
    Lays b (Set.Ico 0 n) (fun out => modifySlice out 0 n w) := by
  simpa using lays_modifySlice (by simpa using h) hw

/-- The padding is laid over the gaps. -/
theorem lays_gaps {exts : List Extent} (hstart : ∀ x ∈ exts, x.start ≤ bytes.length) :
    Lays bytes (⋃ g ∈ gaps 0 exts bytes.length, Set.Ico g.start (g.start + g.len))
      (fun out => writeAll out ((gaps 0 exts bytes.length).map (chunkAt bytes))) := by
  simp only [writeAll, List.foldlM_map]
  exact Lays.foldlM fun g hg => lays_copyInto (stop_le_of_mem_gaps hstart hg)

end Univdreams
