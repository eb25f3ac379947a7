import Univdreams.Lower.Section

/-!
# String tables and notes

The structured forms of `src/translate/decompile/mod.rs` for sections of data. `decode_strtab` reads
a section as a list of terminated strings and `decode_notes` as a list of notes. Both refuse a
section that they do not cover exactly, and the lowering of what they accept is the section:
`lowerStringsBytes_decodeStrtab` and `lowerNotesBytes_decodeNotes`.
-/

namespace Univdreams.Decompile

open Ast Lower List Option

variable {data : Bytes}

/-! ## String tables -/

/-- `decode_strtab`. The empty chunk behind the last terminator is no string. -/
def decodeStrtab (data : Bytes) : Option (List Text) :=
  if data = [] then some []
  else if data.getLast? ≠ some 0 then none
  else do
    let out ← (data.splitOn 0).mapM Text.fromUtf8
    return if out.getLast? = some [] then out.dropLast else out

/-- Chunks with zeros between them, the last one empty, are the others with a zero behind each. -/
theorem intercalate_concat_nil : ∀ chunks : List Bytes,
    [0].intercalate (chunks ++ [[]]) = chunks.flatMap fun c => c ++ [0]
  | [] => rfl
  | [c] => by simp [intercalate]
  | c :: d :: cs => by
    have ih := intercalate_concat_nil (d :: cs)
    simp only [intercalate, cons_append, intersperse_cons_cons, flatten_cons, flatMap_cons] at ih ⊢
    rw [ih]
    simp

/-- Chunks that were read as texts are the bytes of these texts. -/
theorem map_utf8_of_mapM : ∀ {chunks : List Bytes} {out : List Text},
    chunks.mapM Text.fromUtf8 = some out → out.map Text.utf8 = chunks
  | [], out, h => by
    obtain rfl : [] = out := Option.some.inj h
    rfl
  | c :: cs, out, h => by
    rw [mapM_cons] at h
    obtain ⟨s, rest, hs, hrest, rfl⟩ := steps₂_eq_some.1 h
    rw [map_cons, Text.utf8_of_fromUtf8 hs, map_utf8_of_mapM hrest]

/-- The lowering of a string table is the section from which it was read. -/
theorem lowerStringsBytes_decodeStrtab {strings : List Text}
    (h : decodeStrtab data = some strings) :
    lowerStringsBytes strings = data := by
  unfold decodeStrtab at h
  split_ifs at h with hnil hlast
  · obtain rfl : [] = strings := Option.some.inj h
    exact hnil.symm
  obtain ⟨out, hout, h⟩ := bind_eq_some_iff.1 h
  obtain ⟨init, rfl⟩ := List.getLast?_eq_some_iff.1 (not_not.1 hlast)
  have hmap := map_utf8_of_mapM hout
  have hsplit : (init ++ [(0 : UInt8)]).splitOn 0 = init.splitOn 0 ++ [[]] := by
    rw [splitOn, splitOnP_append_cons init [] (by simp), splitOnP_nil]
    rfl
  -- The last text is the empty one, which is dropped.
  rw [hsplit] at hmap
  obtain ⟨strs, last, rfl, hstrs, hend⟩ := map_eq_append_iff.1 hmap
  obtain ⟨e, rfl, he⟩ := map_eq_singleton_iff.1 hend
  have he' : e = [] := by
    cases e with
    | nil => rfl
    | cons c cs =>
      have hpos := String.length_utf8EncodeChar c
      have := congrArg List.length he
      simp only [Text.utf8, flatMap_cons, length_append, length_nil] at this
      have := Char.utf8Size_pos c
      omega
  subst he'
  have hstrings : strs = strings := by simpa using h
  calc lowerStringsBytes strings = (strs.map Text.utf8).flatMap fun c => c ++ [0] := by
        rw [← hstrings, lowerStringsBytes, flatMap_map]
    _ = [0].intercalate ((init ++ [0]).splitOn 0) := by
        rw [hstrs, hsplit, intercalate_concat_nil]
    _ = init ++ [0] := intercalate_splitOn (0 : UInt8)

/-! ## Notes -/

/-- The position behind the zeros that fill up to the next multiple of four. -/
def skipZeros (data : Bytes) (i : ℕ) : Option ℕ :=
  let pad := (4 - i % 4) % 4
  if slice data i (i + pad) = some (List.replicate pad 0) then some (i + pad) else none

/-- The note at position `i`, and the position behind it. -/
def decodeNote (data : Bytes) (i : ℕ) : Option (NoteEntry × ℕ) := do
  let header ← slice data i (i + 12)
  let nameSize := readLe 4 header 0
  let descSize := readLe 4 header 4
  let noteType := readLe 4 header 8
  if nameSize = 0 then none
  else
    -- The size of the name counts its terminator.
    let nameBytes ← slice data (i + 12) (i + 12 + nameSize)
    if nameBytes.getLast? ≠ some 0 then none
    else
      let name ← Text.fromUtf8 nameBytes.dropLast
      let i ← skipZeros data (i + 12 + nameSize)
      let desc ← slice data i (i + descSize)
      let i ← skipZeros data (i + descSize)
      return (⟨.ofNat noteType, name, desc⟩, i)

/-- The zeros that are skipped are those that the lowering fills in. -/
theorem skipZeros_eq_some {i j : ℕ} (h : skipZeros data i = some j) :
    i ≤ j ∧ j ≤ data.length ∧ padTo4 (data.take i) = data.take j := by
  simp only [skipZeros] at h
  split_ifs at h with hz
  obtain rfl : i + (4 - i % 4) % 4 = j := Option.some.inj h
  obtain ⟨⟨-, hlen⟩, heq⟩ := slice_eq_some.1 hz
  refine ⟨by omega, hlen, ?_⟩
  rw [padTo4, length_take, min_eq_left (by omega), take_add, heq, window]
  simp

/-- The bytes up to the end of a slice are those up to its start, and the slice. -/
theorem take_append_of_slice {part : Bytes} {i j : ℕ} (h : slice data i j = some part) :
    data.take i ++ part = data.take j := by
  obtain ⟨⟨hij, -⟩, rfl⟩ := slice_eq_some.1 h
  obtain ⟨n, rfl⟩ := Nat.exists_eq_add_of_le hij
  rw [take_add, window, Nat.add_sub_cancel_left]

theorem length_of_slice {part : Bytes} {i j : ℕ} (h : slice data i j = some part) :
    part.length = j - i := by
  obtain ⟨⟨hij, hj⟩, rfl⟩ := slice_eq_some.1 h
  exact length_window (by omega)

/-- A header of three words is the words in order. -/
theorem header_eq {header : Bytes} (h : header.length = 12) :
    toLe 4 (readLe 4 header 0) ++ toLe 4 (readLe 4 header 4) ++ toLe 4 (readLe 4 header 8) =
      header := by
  rw [toLe_readLe (by omega), toLe_readLe (by omega), toLe_readLe (by omega)]
  match header, h with
  | [_, _, _, _, _, _, _, _, _, _, _, _], _ => rfl

/-- A note that was read is lowered to the bytes between its positions. -/
theorem decodeNote_eq_some {i j : ℕ} {e : NoteEntry} (h : decodeNote data i = some (e, j)) :
    i < j ∧ j ≤ data.length ∧ lowerNote (data.take i) e = data.take j := by
  obtain ⟨header, hheader, h⟩ := bind_eq_some_iff.1 h
  dsimp only at h
  split_ifs at h with hzero
  obtain ⟨nameBytes, hname, h⟩ := bind_eq_some_iff.1 h
  split_ifs at h with hlast
  obtain ⟨name, hutf8, h⟩ := bind_eq_some_iff.1 h
  obtain ⟨i1, desc, i2, hi1, hdesc, hi2, h⟩ := steps₃_eq_some.1 h
  obtain ⟨rfl, rfl⟩ := Prod.mk.inj h
  obtain ⟨hle1, -, hpad1⟩ := skipZeros_eq_some hi1
  obtain ⟨hle2, hlen, hpad2⟩ := skipZeros_eq_some hi2
  refine ⟨by omega, hlen, ?_⟩
  -- The sizes in the header are those of the name and of the description.
  have hbytes : Text.utf8 name ++ [0] = nameBytes := by
    obtain ⟨init, hinit⟩ := List.getLast?_eq_some_iff.1 (not_not.1 hlast)
    rw [Text.utf8_of_fromUtf8 hutf8, hinit, dropLast_concat]
  have hnameLen : (Text.utf8 name).length + 1 = readLe 4 header 0 := by
    have h1 := congrArg List.length hbytes
    have h2 := length_of_slice hname
    simp only [length_append, length_singleton] at h1
    omega
  have hdescLen : desc.length = readLe 4 header 4 := by
    have h2 := length_of_slice hdesc
    omega
  have hhead : toLe 4 (u32OrZero ((Text.utf8 name).length + 1)) ++ toLe 4 (u32OrZero desc.length) ++
      toLe 4 (UInt32.ofNat (readLe 4 header 8)).toNat = header := by
    have hlt : ∀ off, readLe 4 header off < 2 ^ 32 := fun off => readLe_lt 4 header off
    rw [hnameLen, hdescLen, u32OrZero, if_pos (hlt 0), u32OrZero, if_pos (hlt 4),
      UInt32.toNat_ofNat_of_lt' (hlt 8)]
    exact header_eq (by simpa using length_of_slice hheader)
  rw [lowerNote]
  simp only [hhead]
  rw [append_assoc _ (Text.utf8 name), hbytes, take_append_of_slice hheader,
    take_append_of_slice hname, hpad1, take_append_of_slice hdesc, hpad2]

/-- The notes from position `i` on. -/
def decodeNotesFrom (data : Bytes) (i : ℕ) : Option (List NoteEntry) :=
  if data.length ≤ i then some []
  else match _hnote : decodeNote data i with
    | none => none
    | some (e, j) => do
      let rest ← decodeNotesFrom data j
      return e :: rest
termination_by data.length - i
decreasing_by
  have := (decodeNote_eq_some _hnote).1
  omega

/-- `decode_notes`. -/
def decodeNotes (data : Bytes) : Option (List NoteEntry) := decodeNotesFrom data 0

/-- The notes from a position on are lowered to the bytes from there on. -/
theorem foldl_lowerNote_decodeNotesFrom (i : ℕ) : ∀ {entries : List NoteEntry},
    decodeNotesFrom data i = some entries → i ≤ data.length →
      entries.foldl lowerNote (data.take i) = data := by
  -- The bytes before position `i` are those of the notes that were read already.
  induction i using decodeNotesFrom.induct data with
  | case1 i hend =>
    intro entries h _
    rw [decodeNotesFrom, if_pos hend] at h
    obtain rfl : [] = entries := Option.some.inj h
    exact take_of_length_le hend
  | case2 i hend hnone =>
    intro entries h _
    rw [decodeNotesFrom, if_neg hend] at h
    split at h <;> simp_all
  | case3 i hend e j hnote ih =>
    intro entries h _
    rw [decodeNotesFrom, if_neg hend] at h
    obtain ⟨-, hj, hlower⟩ := decodeNote_eq_some hnote
    split at h
    · simp_all
    rename_i e' j' hnote'
    obtain ⟨rfl, rfl⟩ : e = e' ∧ j = j' := by simpa [hnote] using hnote'
    obtain ⟨rest, hrest, rfl⟩ := steps₁_eq_some.1 h
    rw [foldl_cons, hlower]
    exact ih hrest hj

/-- The lowering of a list of notes is the section from which it was read. -/
theorem lowerNotesBytes_decodeNotes {entries : List NoteEntry}
    (h : decodeNotes data = some entries) :
    lowerNotesBytes entries = data := by
  simpa [lowerNotesBytes] using foldl_lowerNote_decodeNotesFrom 0 h (Nat.zero_le _)

end Univdreams.Decompile
