import Mathlib

/-!
# Byte strings, little-endian fields, and overlays

The part of the byte handling that does not depend on a file format: fixed-width little-endian
fields, slices whose bounds are checked when they are taken, and writers that lay byte strings over
a buffer. A slice or a copy outside its buffer panics in the source; here it is `none`.

The main tool is `Lays`: a writer lays `b` over the places `S` when, started on a buffer of the
length of `b`, it succeeds and leaves there the bytes of `b`, without spoiling a place that already
held them. Writers compose (`Lays.seq`, `Lays.foldlM`) whether or not their places overlap, and a
writer that lays `b` over all of its places returns `b` (`Lays.eq_some`).
-/

namespace Univdreams

open List

/-- A byte string. -/
abbrev Bytes := List UInt8

variable {b : Bytes} {w : Bytes → Option Bytes}

-- The sizes of the register files and of the fields of an instruction, as named instances: a
-- definition that uses a register number then refers to one and the same proof in every module.
instance neZero_four : NeZero 4 := ⟨by decide⟩
instance neZero_eight : NeZero 8 := ⟨by decide⟩
instance neZero_sixteen : NeZero 16 := ⟨by decide⟩

/-- How a fallible computation can fail to return a value: with an error, or by a panic. -/
inductive Fault (ε : Type) where
  /-- The function returned the error `e`. -/
  | err (e : ε)
  /-- The function panicked. -/
  | panic
  deriving DecidableEq, Repr

/-- The outcome of a computation that returns an error of type `ε` or a value, or panics. -/
abbrev Run (ε α : Type) := Except (Fault ε) α

variable (n : ℕ) (bytes : Bytes) {ε α : Type}

/-- A step that can only panic, inside a fallible computation. -/
def orPanic : Option α → Run ε α
  | some a => .ok a
  | none => .error .panic

/-- The early return of the error `e`. -/
def fail (e : ε) : Run ε α := .error (.err e)

theorem orPanic_eq_ok {o : Option α} {a : α} : (orPanic o : Run ε α) = .ok a ↔ o = some a := by
  cases o <;> simp [orPanic]

@[simp] theorem Run.pure_eq_ok {a b : α} : (pure a : Run ε α) = .ok b ↔ a = b := by
  simp [pure, Except.pure]

/-- A sequence returns a value exactly when both of its steps do. -/
theorem Run.bind_eq_ok {ε α β : Type} {x : Run ε α} {f : α → Run ε β} {b : β} :
    x >>= f = .ok b ↔ ∃ a, x = .ok a ∧ f a = .ok b := by
  cases x with
  | error e => simp [bind, Except.bind]
  | ok a => simp [bind, Except.bind]

section Steps

variable {ε α β γ δ : Type}
variable {x : Run ε α} {y : α → Run ε β}

/-- Two steps, and what follows them. -/
theorem Run.bind₂_eq_ok {z : α → β → Run ε γ} {v : γ} : (do let a ← x; let b ← y a; z a b) = .ok v ↔
      ∃ a b, x = .ok a ∧ y a = .ok b ∧ z a b = .ok v := by
  simp only [Run.bind_eq_ok, exists_and_left]

/-- A step and a `return`. -/
theorem Run.steps₁_eq_ok {r : α → β} {v : β} :
    (do let a ← x; return r a) = .ok v ↔ ∃ a, x = .ok a ∧ r a = v := by
  simp only [Run.bind_eq_ok, Run.pure_eq_ok]

/-- Two steps and a `return`. -/
theorem Run.steps₂_eq_ok {r : α → β → γ} {v : γ} :
    (do let a ← x; let b ← y a; return r a b) = .ok v ↔
      ∃ a b, x = .ok a ∧ y a = .ok b ∧ r a b = v := by
  simp only [Run.bind_eq_ok, Run.pure_eq_ok, exists_and_left]

/-- Three steps and a `return`. -/
theorem Run.steps₃_eq_ok {z : α → β → Run ε γ} {r : α → β → γ → δ} {v : δ} :
    (do let a ← x; let b ← y a; let c ← z a b; return r a b c) = .ok v ↔
      ∃ a b c, x = .ok a ∧ y a = .ok b ∧ z a b = .ok c ∧ r a b c = v := by
  simp only [Run.bind_eq_ok, Run.pure_eq_ok, exists_and_left]

theorem steps₁_eq_some {x : Option α} {r : α → β} {v : β} :
    (x.bind fun a => some (r a)) = some v ↔ ∃ a, x = some a ∧ r a = v := by
  simp [Option.bind_eq_some_iff]

theorem steps₂_eq_some {x : Option α} {y : α → Option β} {r : α → β → γ} {v : γ} :
    (x.bind fun a => (y a).bind fun b => some (r a b)) = some v ↔
      ∃ a b, x = some a ∧ y a = some b ∧ r a b = v := by
  simp [Option.bind_eq_some_iff]

theorem steps₃_eq_some {x : Option α} {y : α → Option β} {z : α → β → Option γ}
    {r : α → β → γ → δ} {v : δ} :
    (x.bind fun a => (y a).bind fun b => (z a b).bind fun c => some (r a b c)) = some v ↔
      ∃ a b c, x = some a ∧ y a = some b ∧ z a b = some c ∧ r a b c = v := by
  simp [Option.bind_eq_some_iff]

end Steps

/-- A pass over a list succeeds when it does so on every element. -/
theorem isSome_mapM {α β : Type} {g : α → Option β} : ∀ {xs : List α},
    (xs.mapM g).isSome ↔ ∀ x ∈ xs, (g x).isSome
  | [] => by simp
  | x :: xs => by
    rw [mapM_cons, forall_mem_cons, ← isSome_mapM]
    cases g x with
    | none => simp
    | some y => cases xs.mapM g <;> simp

/-- What a pass over a list returns comes from elements of the list. -/
theorem exists_of_mem_mapM {α β : Type} {f : α → Option β} : ∀ {xs : List α} {ys : List β},
    xs.mapM f = some ys → ∀ {y}, y ∈ ys → ∃ x ∈ xs, f x = some y
  | [], _, hf, _, hy => by
    obtain rfl := Option.some.inj hf
    cases hy
  | x :: xs, _, hf, y, hy => by
    rw [mapM_cons] at hf
    obtain ⟨y', ys, hy', hys, rfl⟩ := steps₂_eq_some.1 hf
    rcases mem_cons.1 hy with rfl | hmem
    · exact ⟨x, by simp, hy'⟩
    · obtain ⟨x', hx', he⟩ := exists_of_mem_mapM hys hmem
      exact ⟨x', by simp [hx'], he⟩

/-- What every step of a loop keeps holds behind the loop. -/
theorem Run.foldlM_invariant {ε σ α : Type} {P : σ → Prop} {step : σ → α → Run ε σ} :
    ∀ {xs : List α} {s s' : σ}, (∀ x ∈ xs, ∀ s s', P s → step s x = .ok s' → P s') → P s →
      xs.foldlM step s = .ok s' → P s'
  | [], s, s', _, hs, h => by
    have hss : s = s' := Run.pure_eq_ok.1 h
    rwa [← hss]
  | x :: xs, s, s', hstep, hs, h => by
    rw [foldlM_cons] at h
    obtain ⟨s1, h1, h⟩ := Run.bind_eq_ok.1 h
    exact Run.foldlM_invariant (fun y hy => hstep y (by simp [hy]))
      (hstep x (by simp) s s1 hs h1) h

/-- What every step of a loop that may panic keeps holds behind the loop. -/
theorem foldlM_some_invariant {σ α : Type} {P : σ → Prop} {step : σ → α → Option σ} :
    ∀ {xs : List α} {s s' : σ}, P s → (∀ s x s', P s → step s x = some s' → P s') →
      xs.foldlM step s = some s' → P s'
  | [], s, s', hs, _, h => by
    rw [foldlM_nil, Option.pure_def, Option.some_inj] at h
    exact h ▸ hs
  | x :: xs, s, s', hs, hstep, h => by
    rw [foldlM_cons, Option.bind_eq_bind, Option.bind_eq_some_iff] at h
    obtain ⟨s1, h1, h⟩ := h
    exact foldlM_some_invariant (hstep s x s1 hs h1) hstep h

/-- The computation does not panic, and what it returns has the property `P`. It may fail. -/
def Run.Safe (P : α → Prop) : Run ε α → Prop
  | .ok a => P a
  | .error (.err _) => True
  | .error .panic => False

theorem Run.Safe.pure {ε α : Type} {P : α → Prop} {a : α} (h : P a) :
    Run.Safe P (pure a : Run ε α) := h

/-- A sequence is safe when its second step is, on the values of the first. -/
theorem Run.Safe.bind {ε α β : Type} {P : α → Prop} {Q : β → Prop} {x : Run ε α} {f : α → Run ε β}
    (hx : Run.Safe P x) (hf : ∀ a, P a → Run.Safe Q (f a)) : Run.Safe Q (x >>= f) := by
  match x, hx with
  | .ok a, hx => exact hf a hx
  | .error (.err e), _ => trivial

/-- A step that does not panic is safe. -/
theorem Run.Safe.orPanic {ε α : Type} {P : α → Prop} {o : Option α} {a : α} (ho : o = some a)
    (h : P a) : Run.Safe P (Univdreams.orPanic o : Run ε α) := by
  rw [ho]
  exact h

/-- A safe computation returns a value or an error. -/
theorem Run.Safe.ok_or_err {P : α → Prop} {x : Run ε α} (hx : Run.Safe P x) :
    (∃ a, x = .ok a ∧ P a) ∨ ∃ e, x = .error (.err e) := by
  match x, hx with
  | .ok a, hx => exact .inl ⟨a, rfl, hx⟩
  | .error (.err e), _ => exact .inr ⟨e, rfl⟩

/-! ## Little-endian fields -/

/-- The `n` little-endian bytes of `v`. The bits above them are dropped, as a narrowing cast
does. -/
def toLe : ℕ → ℕ → Bytes
  | 0, _ => []
  | n + 1, v => UInt8.ofNat v :: toLe n (v / 256)

/-- The number with the given little-endian bytes. -/
def ofLe : Bytes → ℕ
  | [] => 0
  | b :: bs => b.toNat + 256 * ofLe bs

@[simp] theorem length_toLe (n v : ℕ) : (toLe n v).length = n := by
  induction n generalizing v with
  | zero => rfl
  | succ n ih => simp [toLe, ih]

/-- A field of `k` bytes holds a number below `256 ^ k`. -/
theorem ofLe_lt (bs : Bytes) : ofLe bs < 256 ^ bs.length := by
  induction bs with
  | nil => simp [ofLe]
  | cons b bs ih =>
    have hb : b.toNat < 256 := b.toNat_lt
    rw [ofLe, length_cons, pow_succ]
    omega

/-- Writing back a number that was read from a field gives the bytes of the field. -/
theorem toLe_ofLe (bs : Bytes) : toLe bs.length (ofLe bs) = bs := by
  induction bs with
  | nil => rfl
  | cons b bs ih =>
    have hb : b.toNat < 256 := b.toNat_lt
    have hdiv : (b.toNat + 256 * ofLe bs) / 256 = ofLe bs := by omega
    have hlow : UInt8.ofNat (b.toNat + 256 * ofLe bs) = b := by
      rw [← UInt8.toNat_inj, UInt8.toNat_ofNat']
      omega
    rw [length_cons, toLe, ofLe, hdiv, hlow, ih]

/-- Reading a field that was written gives the number modulo the field's width. -/
theorem ofLe_toLe (n v : ℕ) : ofLe (toLe n v) = v % 256 ^ n := by
  induction n generalizing v with
  | zero => simp [toLe, ofLe, Nat.mod_one]
  | succ n ih =>
    have hpow : 256 ^ (n + 1) = 256 * 256 ^ n := pow_succ' 256 n
    rw [toLe, ofLe, ih, UInt8.toNat_ofNat', hpow, Nat.mod_mul]

/-! ## Slices -/

/-- The `n` bytes of `bytes` from `off` on, fewer where `bytes` ends before them. -/
def window (off n : ℕ) : Bytes := (bytes.drop off).take n

/-- `bytes[start..stop]`, which panics unless `start ≤ stop ≤ bytes.len()`. -/
def slice (start stop : ℕ) : Option Bytes :=
  if start ≤ stop ∧ stop ≤ bytes.length then some (window bytes start (stop - start)) else none

/-- The `n`-byte little-endian field of `bytes` at `off`. Missing bytes read as zero: a caller has
checked the length. -/
def readLe (off : ℕ) : ℕ := ofLe (window bytes off n)

theorem length_window {bytes : Bytes} {off n : ℕ} (h : off + n ≤ bytes.length) :
    (window bytes off n).length = n := by
  simp only [window, length_take, length_drop]
  omega

theorem getElem?_window (off n i : ℕ) :
    (window bytes off n)[i]? = if i < n then bytes[off + i]? else none := by
  simp [window, List.getElem?_take]

/-- Two windows, one behind the other. -/
theorem window_add (off n m : ℕ) :
    window bytes off n ++ window bytes (off + n) m = window bytes off (n + m) := by
  simp only [window, take_add, drop_drop]

theorem slice_eq_some {bytes s : Bytes} {start stop : ℕ} :
    slice bytes start stop = some s ↔
      (start ≤ stop ∧ stop ≤ bytes.length) ∧ s = window bytes start (stop - start) := by
  unfold slice
  split_ifs with h <;> simp [h, eq_comm]

/-- A field holds a number below `256 ^ n`, also where the bytes end before it. -/
theorem readLe_lt (off : ℕ) : readLe n bytes off < 256 ^ n := by
  refine lt_of_lt_of_le (ofLe_lt _) (Nat.pow_le_pow_right (by norm_num) ?_)
  simp [window]

/-- Writing back a field that was read gives the bytes that were there. -/
theorem toLe_readLe {n : ℕ} {bytes : Bytes} {off : ℕ} (h : off + n ≤ bytes.length) :
    toLe n (readLe n bytes off) = window bytes off n := by
  have hw := toLe_ofLe (window bytes off n)
  rwa [length_window h] at hw

/-! ## Writes -/

/-- `out[off..off + src.len()].copy_from_slice(src)`, which panics where the range leaves `out`. -/
def copyInto (out : Bytes) (off : ℕ) (src : Bytes) : Option Bytes :=
  if off + src.length ≤ out.length then
    some (out.take off ++ src ++ out.drop (off + src.length))
  else none

/-- `w(&mut out[start..stop])`: run a writer on a part of the buffer, in place. -/
def modifySlice (out : Bytes) (start stop : ℕ) (w : Bytes → Option Bytes) : Option Bytes := do
  let part ← slice out start stop
  let part' ← w part
  copyInto out start part'

/-- Several copies into one buffer, one after the other. -/
def writeAll (out : Bytes) (ws : List (ℕ × Bytes)) : Option Bytes :=
  ws.foldlM (fun out w => copyInto out w.1 w.2) out

/-- The buffer `out` has the length of `b` and holds the bytes of `b` at the places `S`. -/
structure Agrees (b out : Bytes) (S : Set ℕ) : Prop where
  length_eq : out.length = b.length
  get_eq : ∀ i ∈ S, out[i]? = b[i]?

/-- The writer `w` lays the bytes of `b` over the places `S`: it succeeds on every buffer as long as
`b`, and places that agreed with `b` still do. -/
def Lays (b : Bytes) (S : Set ℕ) (w : Bytes → Option Bytes) : Prop :=
  ∀ out T, Agrees b out T → ∃ out', w out = some out' ∧ Agrees b out' (T ∪ S)

/-- A buffer that agrees with `b` at every place of `b` is `b`. -/
theorem Agrees.eq {b out : Bytes} {S : Set ℕ} (h : Agrees b out S) (hS : ∀ i < b.length, i ∈ S) :
    out = b := by
  apply ext_getElem?
  intro i
  rcases lt_or_ge i b.length with hi | hi
  · exact h.get_eq i (hS i hi)
  · rw [List.getElem?_eq_none hi, List.getElem?_eq_none (by rw [h.length_eq]; exact hi)]

/-- A writer that lays `b` over all of its places returns `b`. -/
theorem Lays.eq_some {S : Set ℕ} (h : Lays b S w)
    (hS : ∀ i < b.length, i ∈ S) {out : Bytes} (hlen : out.length = b.length) : w out = some b := by
  obtain ⟨out', hw, hag⟩ := h out ∅ ⟨hlen, by simp⟩
  rw [hw, hag.eq fun i hi => Set.mem_union_right _ (hS i hi)]

/-- The places of a writer can be restricted. -/
theorem Lays.mono {S T : Set ℕ} (h : Lays b S w) (hT : T ⊆ S) : Lays b T w := by
  intro out U hag
  obtain ⟨out', hw, hag'⟩ := h out U hag
  exact ⟨out', hw, hag'.length_eq, fun i hi => hag'.get_eq i (Set.union_subset_union_right U hT hi)⟩

/-- The writer that does nothing lays any `b` over no place. -/
theorem lays_some (b : Bytes) : Lays b ∅ some :=
  fun out T hag => ⟨out, rfl, by simpa using hag⟩

/-- Two writers, one after the other. -/
theorem Lays.seq {S T : Set ℕ} {v w : Bytes → Option Bytes} (hv : Lays b S v)
    (hw : Lays b T w) : Lays b (S ∪ T) (fun out => v out >>= w) := by
  intro out U hag
  obtain ⟨out1, h1, hag1⟩ := hv out U hag
  obtain ⟨out2, h2, hag2⟩ := hw out1 _ hag1
  refine ⟨out2, by simp [h1, h2], ?_⟩
  rwa [Set.union_assoc] at hag2

/-- A loop of writers, one for each element of a list. -/
theorem Lays.foldlM {α : Type} {b : Bytes} {S : α → Set ℕ} {w : Bytes → α → Option Bytes} :
    ∀ {xs : List α}, (∀ x ∈ xs, Lays b (S x) (fun out => w out x)) →
      Lays b (⋃ x ∈ xs, S x) (fun out => xs.foldlM w out)
  | [], _ => by simpa using lays_some b
  | x :: xs, h => by
    have hx : Lays b (S x) (fun out => w out x) := h x (by simp)
    have hxs : Lays b (⋃ y ∈ xs, S y) (fun out => xs.foldlM w out) :=
      Lays.foldlM fun y hy => h y (by simp [hy])
    have hseq := hx.seq hxs
    simpa [Set.iUnion_or, Set.iUnion_union_distrib] using hseq

/-- Copying a part of `b` to the place where it stands in `b`. -/
theorem lays_copyInto {off n : ℕ} (h : off + n ≤ b.length) :
    Lays b (Set.Ico off (off + n)) (fun out => copyInto out off (window b off n)) := by
  intro out T hag
  have hlen := length_window h
  have hout : off + n ≤ out.length := by rw [hag.length_eq]; exact h
  refine ⟨out.take off ++ window b off n ++ out.drop (off + n), by simp [copyInto, hlen, hout],
    ?_, ?_⟩
  · have := hag.length_eq
    simp only [length_append, length_take, length_drop, hlen]
    omega
  -- Before the range and after it the buffer is the old one, inside it the window of `b`.
  intro i hi
  have htake : (out.take off).length = off := by simp; omega
  rcases lt_or_ge i off with hlo | hlo
  · rw [append_assoc, List.getElem?_append_left (by omega), List.getElem?_take_of_lt hlo]
    refine hag.get_eq i (hi.resolve_right fun hmem => ?_)
    exact absurd hmem.1 (by omega)
  rcases lt_or_ge i (off + n) with hhi | hhi
  · rw [List.getElem?_append_left (by simp [htake, hlen]; omega),
      List.getElem?_append_right (by omega), htake, getElem?_window, if_pos (by omega)]
    congr 1
    omega
  rw [List.getElem?_append_right (by simp [htake, hlen]; omega), List.getElem?_drop]
  have hi' : i ∈ T := hi.resolve_right fun hmem => absurd hmem.2 (by omega)
  rw [← hag.get_eq i hi']
  congr 1
  simp only [length_append, htake, hlen]
  omega

/-- A writer of a part of the buffer that gives the part of `b` at that place. -/
theorem lays_modifySlice {off n : ℕ}
    (h : off + n ≤ b.length)
    (hw : ∀ part : Bytes, part.length = n → w part = some (window b off n)) :
    Lays b (Set.Ico off (off + n)) (fun out => modifySlice out off (off + n) w) := by
  intro out T hag
  have hout : off + n ≤ out.length := by rw [hag.length_eq]; exact h
  obtain ⟨out', hcopy, hag'⟩ := lays_copyInto h out T hag
  refine ⟨out', ?_, hag'⟩
  have hpart : slice out off (off + n) = some (window out off n) := by
    rw [slice_eq_some]
    exact ⟨⟨by omega, hout⟩, by congr 1; omega⟩
  simp only [modifySlice, hpart, Option.bind_eq_bind, Option.bind_some]
  rw [hw _ (length_window hout)]
  exact hcopy

/-! ## Records of little-endian fields -/

/-- Whether the fields, given by offset and width, cover a record of `n` bytes and stay inside
it. -/
def fieldsCover (fields : List (ℕ × ℕ)) (n : ℕ) : Bool :=
  fields.all (fun f => f.1 + f.2 ≤ n) &&
    (List.range n).all fun i => fields.any fun f => f.1 ≤ i && i < f.1 + f.2

theorem window_window {off n i k : ℕ} (h : i + k ≤ n) :
    window (window b off n) i k = window b (off + i) k := by
  simp only [window, drop_take, drop_drop, take_take]
  congr 1
  omega

/-- Writing back fields of a record at `off` of `b` gives the record when the fields cover it. -/
theorem writeAll_windows {b part : Bytes} {off n : ℕ} (fields : List (ℕ × ℕ))
    (hcov : fieldsCover fields n = true) (hb : off + n ≤ b.length) (hlen : part.length = n) :
    writeAll part (fields.map fun f => (f.1, window b (off + f.1) f.2)) =
      some (window b off n) := by
  simp only [fieldsCover, Bool.and_eq_true, all_eq_true, decide_eq_true_eq, mem_range,
    any_eq_true] at hcov
  obtain ⟨hin, hall⟩ := hcov
  have hrec := length_window hb
  have hlays : Lays (window b off n) (⋃ f ∈ fields, Set.Ico f.1 (f.1 + f.2)) (fun out =>
      fields.foldlM (fun out f => copyInto out f.1 (window b (off + f.1) f.2)) out) := by
    refine Lays.foldlM fun f hf => ?_
    rw [← window_window (hin f hf)]
    exact lays_copyInto (by rw [hrec]; exact hin f hf)
  rw [writeAll, foldlM_map]
  refine hlays.eq_some (fun i hi => ?_) (hlen.trans hrec.symm)
  obtain ⟨f, hf, hif⟩ := hall i (by rwa [hrec] at hi)
  simp only [Set.mem_iUnion, Set.mem_Ico]
  exact ⟨f, hf, hif⟩

end Univdreams
