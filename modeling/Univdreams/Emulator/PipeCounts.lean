import Univdreams.Emulator.Processes
import Univdreams.Emulator.ProcFs

/-!
# The counts of the ends of a pipe

A pipe carries the number of descriptors of each of its ends, and a reader of an empty pipe sees the
end of the file when there is no writer. The counts are exact when they are the number of
descriptors of live processes (`Counted`).

To add a descriptor together with `pipeRef`, and to take one away, keeps the counts exact, whatever
the other descriptors are. Every call does one of the two. A process that exits does neither: its
descriptors are gone, and the counts stay. So the counts are exact in the runs in which no process
exits with an end of a pipe, and there a reader is woken as soon as the last writer is gone.
-/

namespace Univdreams.Emulator

open Tables List Option Kernel AList

open scoped List

variable {v : Fd} {b : Block}

/-- The pipe that a descriptor is an end of. -/
def Fd.pipeOf : Fd → Option ℕ
  | .pipeRead i | .pipeWrite i => some i
  | _ => none

/-- The counts of the pipes are the numbers of their descriptors. -/
structure Counted (pipes : List Pipe) (ds : List Fd) : Prop where
  readers : ∀ i p, pipes[i]? = some p → p.readers = (ds.count (Fd.pipeRead i) : ℤ)
  writers : ∀ i p, pipes[i]? = some p → p.writers = (ds.count (Fd.pipeWrite i) : ℤ)
  ends : ∀ v ∈ ds, ∀ i, v.pipeOf = some i → i < pipes.length

/-! ## One descriptor -/

namespace Kernel

/-- Counting a descriptor changes one count of one pipe. -/
theorem getElem?_pipeRef (k : Kernel) (v : Fd) (delta : ℤ) (i : ℕ) :
    (k.pipeRef v delta).pipes[i]? = k.pipes[i]?.map fun p =>
      { p with readers := p.readers + if v = .pipeRead i then delta else 0
               writers := p.writers + if v = .pipeWrite i then delta else 0 } := by
  unfold pipeRef
  split
  · next j =>
    rw [List.getElem?_modify]
    by_cases hij : j = i <;> simp [hij]
  · next j =>
    rw [List.getElem?_modify]
    by_cases hij : j = i <;> simp [hij]
  next hread hwrite =>
  rw [if_neg (hread i), if_neg (hwrite i)]
  simp

theorem length_pipeRef (k : Kernel) (v : Fd) (delta : ℤ) :
    (k.pipeRef v delta).pipes.length = k.pipes.length := by
  unfold pipeRef
  split <;> simp

theorem length_forkDupPipes (k : Kernel) : k.forkDupPipes.pipes.length = k.pipes.length := by
  have hfold : ∀ (vs : List Fd) (k : Kernel),
      (vs.foldl (fun k v => k.pipeRef v 1) k).pipes.length = k.pipes.length := by
    intro vs
    induction vs with
    | nil => exact fun k => rfl
    | cons v vs ih => exact fun k => (ih _).trans (length_pipeRef k v 1)
  exact hfold _ k

theorem pipeRef_of_not_pipe (k : Kernel) (hv : v.pipeOf = none) (delta : ℤ) :
    k.pipeRef v delta = k := by
  unfold pipeRef
  split
  · cases hv
  · cases hv
  · rfl

end Kernel

namespace Counted

variable {pipes : List Pipe} {k : Kernel} {v : Fd} {ds ds' vs : List Fd}

theorem perm (h : Counted pipes ds) (hperm : ds' ~ ds) : Counted pipes ds' := by
  refine ⟨?_, ?_, fun v hv => h.ends v (hperm.subset hv)⟩
  · intro i p hp
    rw [hperm.count_eq, h.readers i p hp]
  · intro i p hp
    rw [hperm.count_eq, h.writers i p hp]

/-- The counts follow the descriptors when those change as the count of one of them does. -/
theorem pipeRef {delta : ℤ} (h : Counted k.pipes ds)
    (hcount : ∀ w, (ds'.count w : ℤ) = ds.count w + if v = w then delta else 0)
    (hends : ∀ w ∈ ds', ∀ i, w.pipeOf = some i → i < k.pipes.length) :
    Counted (k.pipeRef v delta).pipes ds' := by
  refine ⟨?_, ?_, by rwa [length_pipeRef]⟩ <;> intro i p hp <;>
    rw [Kernel.getElem?_pipeRef] at hp <;> obtain ⟨p0, hp0, rfl⟩ := map_eq_some_iff.1 hp
  · rw [hcount, h.readers i p0 hp0]
  · rw [hcount, h.writers i p0 hp0]

/-- One more descriptor. -/
theorem pipeRef_cons (h : Counted k.pipes ds) (hv : ∀ i, v.pipeOf = some i → i < k.pipes.length) :
    Counted (k.pipeRef v 1).pipes (v :: ds) :=
  h.pipeRef (fun w => by rw [count_cons]; split <;> simp_all) (forall_mem_cons.2 ⟨hv, h.ends⟩)

/-- One descriptor less. -/
theorem pipeRef_tail (h : Counted k.pipes (v :: ds)) : Counted (k.pipeRef v (-1)).pipes ds :=
  h.pipeRef (fun w => by rw [count_cons]; split <;> simp_all)
    fun w hw => h.ends w (mem_cons_of_mem _ hw)

/-- All descriptors of a process once more. -/
theorem foldl_pipeRef (h : Counted k.pipes ds)
    (hvs : ∀ v ∈ vs, ∀ i, v.pipeOf = some i → i < k.pipes.length) :
    Counted (vs.foldl (fun k v => k.pipeRef v 1) k).pipes (vs ++ ds) := by
  induction vs generalizing k ds with
  | nil => exact h
  | cons v vs ih =>
    have hfirst : Counted (k.pipeRef v 1).pipes (v :: ds) := h.pipeRef_cons (hvs v (by simp))
    have hrest : Counted _ (vs ++ v :: ds) := ih hfirst fun w hw => by
      rw [length_pipeRef]
      exact hvs w (mem_cons_of_mem _ hw)
    exact hrest.perm perm_middle.symm

/-- Descriptors that are no ends of pipes can go without notice. -/
theorem drop_others (h : Counted pipes (vs ++ ds)) (hvs : ∀ v ∈ vs, v.pipeOf = none) :
    Counted pipes ds := by
  have hzero : ∀ w : Fd, w.pipeOf ≠ none → vs.count w = 0 := by
    intro w hw
    exact count_eq_zero.2 fun hmem => hw (hvs w hmem)
  refine ⟨?_, ?_, fun v hv => h.ends v (mem_append_right _ hv)⟩
  · intro i p hp
    have hcount := h.readers i p hp
    rwa [count_append, hzero _ (by simp [Fd.pipeOf]), Nat.zero_add] at hcount
  intro i p hp
  have hcount := h.writers i p hp
  rwa [count_append, hzero _ (by simp [Fd.pipeOf]), Nat.zero_add] at hcount

/-- What is in the pipes does not matter. -/
theorem of_buffers {pipes' : List Pipe} (h : Counted pipes ds) (hlen : pipes'.length = pipes.length)
    (hends : ∀ (i : ℕ) (p : Pipe), pipes'[i]? = some p →
      ∃ p0 : Pipe, pipes[i]? = some p0 ∧ p.readers = p0.readers ∧ p.writers = p0.writers) :
    Counted pipes' ds := by
  refine ⟨?_, ?_, fun v hv i hi => hlen ▸ h.ends v hv i hi⟩
  · intro i p hp
    obtain ⟨p0, hp0, hreaders, -⟩ := hends i p hp
    rw [hreaders, h.readers i p0 hp0]
  intro i p hp
  obtain ⟨p0, hp0, -, hwriters⟩ := hends i p hp
  rw [hwriters, h.writers i p0 hp0]

/-- A new pipe has one descriptor of each end. -/
theorem new_pipe (h : Counted pipes ds) :
    Counted (pipes ++ [⟨[], 1, 1⟩]) (.pipeWrite pipes.length :: .pipeRead pipes.length :: ds) := by
  -- No descriptor refers to the new pipe yet.
  have hnone : ∀ w ∈ ds, w.pipeOf ≠ some pipes.length :=
    fun w hw hi => lt_irrefl _ (h.ends w hw _ hi)
  have hread : ds.count (.pipeRead pipes.length) = 0 := count_eq_zero.2 fun hmem => hnone _ hmem rfl
  have hwrite : ds.count (.pipeWrite pipes.length) = 0 :=
    count_eq_zero.2 fun hmem => hnone _ hmem rfl
  have hcases : ∀ i p, (pipes ++ [⟨[], 1, 1⟩])[i]? = some p →
      (pipes[i]? = some p ∧ i ≠ pipes.length) ∨ (i = pipes.length ∧ p = ⟨[], 1, 1⟩) := by
    intro i p hp
    rcases Nat.lt_trichotomy i pipes.length with hlt | heq | hgt
    · rw [List.getElem?_append_left hlt] at hp
      exact .inl ⟨hp, by omega⟩
    · rw [heq, List.getElem?_concat_length] at hp
      cases hp
      exact .inr ⟨heq, rfl⟩
    · rw [List.getElem?_eq_none (by simp; omega)] at hp
      cases hp
  refine ⟨?_, ?_, ?_⟩
  · intro i p hp
    obtain ⟨hold, hi⟩ | ⟨rfl, rfl⟩ := hcases i p hp
    · simp [h.readers i p hold, hi.symm]
    · simp [hread]
  · intro i p hp
    obtain ⟨hold, hi⟩ | ⟨rfl, rfl⟩ := hcases i p hp
    · simp [h.writers i p hold, hi.symm]
    · simp [hwrite]
  intro w hw i hi
  rw [length_append]
  simp only [mem_cons] at hw
  obtain rfl | rfl | hw := hw
  · cases hi
    simp
  · cases hi
    simp
  · have := h.ends w hw i hi
    omega

end Counted

/-! ## The calls -/

namespace Kernel

open Sched (FdsBelow installFd_spec fdsBelow_erase fdsBelow_insert)

/-- The counts are exact when the process that runs holds its descriptors and the others the rest,
and there are at least `n` pipes. -/
structure Counts (rest : List Fd) (n : ℕ) (k : Kernel) : Prop where
  below : FdsBelow k.toProcState
  counted : Counted k.pipes (vals k.fds ++ rest)
  many : n ≤ k.pipes.length

variable {σ : Type} {k : Kernel} {rest : List Fd} {n : ℕ}

variable (h : k.Counts rest n)

include h

theorem Counts.ends_lookup {fd : ℤ} (hv : k.fds.lookup fd = some v) :
    ∀ i, v.pipeOf = some i → i < k.pipes.length :=
  h.counted.ends v (mem_append_left _ (mem_vals.2 ⟨fd, hv⟩))

omit h in
theorem Counts.of_pipeRef {delta : ℤ} (hbelow : FdsBelow k.toProcState)
    (hcounted : Counted (k.pipeRef v delta).pipes (vals k.fds ++ rest))
    (hmany : n ≤ k.pipes.length) : (k.pipeRef v delta).Counts rest n := by
  refine ⟨?_, ?_, by rwa [length_pipeRef]⟩
  · rw [toProcState_pipeRef]
    exact hbelow
  have hfds : (k.pipeRef v delta).fds = k.fds :=
    congrArg ProcState.fds (toProcState_pipeRef k v delta)
  rw [hfds]
  exact hcounted

/-- A new descriptor, counted when it is an end of a pipe. -/
theorem counts_installFd (hn : k.nextFd < 2 ^ 31 - 1)
    (hv : ∀ i, v.pipeOf = some i → i < k.pipes.length) :
    ((k.installFd v).2.pipeRef v 1).Counts rest n := by
  obtain ⟨hbelow, hvals, -⟩ := installFd_spec h.below hn v
  refine .of_pipeRef hbelow ?_ h.many
  have hcons : Counted ((k.installFd v).2.pipeRef v 1).pipes (v :: (vals k.fds ++ rest)) :=
    Counted.pipeRef_cons h.counted hv
  exact hcons.perm (hvals.append_right rest)

theorem counts_installFd_other (hn : k.nextFd < 2 ^ 31 - 1)
    (hv : v.pipeOf = none) : (k.installFd v).2.Counts rest n := by
  have hcounts := counts_installFd h hn (v := v) fun i hi => by rw [hv] at hi; cases hi
  rwa [pipeRef_of_not_pipe _ hv] at hcounts

theorem counts_sysDup (hn : k.nextFd < 2 ^ 31 - 1) (oldfd : ℤ) :
    (k.sysDup oldfd).2.Counts rest n := by
  unfold sysDup
  split
  · next v hv => exact counts_installFd h hn (h.ends_lookup hv)
  · exact h

theorem counts_sysFcntl (hn : k.nextFd < 2 ^ 31 - 1) (fd : ℤ) (cmd : ℕ) :
    (k.sysFcntl fd cmd).2.Counts rest n := by
  unfold sysFcntl
  split
  · exact h
  split
  · exact counts_sysDup h hn fd
  · exact h

/-- `pipe` counts one end of each kind. -/
theorem counts_sysPipe (hn : k.nextFd < 2 ^ 31 - 2) (writable : Bool) :
    (k.sysPipe writable).2.Counts rest n := by
  let k0 : Kernel := { k with pipes := k.pipes ++ [⟨[], 1, 1⟩] }
  have hbelow0 : FdsBelow k0.toProcState := h.below
  obtain ⟨hbelow1, hvals1, hnext1⟩ := installFd_spec hbelow0 (by show k.nextFd < _; omega)
    (.pipeRead k.pipes.length)
  have hroom : (k0.installFd (.pipeRead k.pipes.length)).2.nextFd < 2 ^ 31 - 1 := by
    rw [hnext1]
    show k.nextFd + 1 < _
    omega
  obtain ⟨hbelow2, hvals2, -⟩ := installFd_spec hbelow1 hroom (.pipeWrite k.pipes.length)
  refine ⟨hbelow2, h.counted.new_pipe.perm ?_, ?_⟩
  · exact (hvals2.trans (hvals1.cons _)).append_right rest
  show n ≤ (k.pipes ++ [Pipe.mk [] 1 1]).length
  rw [length_append]
  exact Nat.le_add_right_of_le h.many

theorem counts_sysSocket (hn : k.nextFd < 2 ^ 31 - 1) (domain : ℤ) (ty : ℕ) :
    (k.sysSocket domain ty).2.Counts rest n := by
  unfold sysSocket
  split
  · exact h
  split
  · exact h
  have hsame : Counts rest n { k with sockets := k.sockets ++ [.pending (ty % 256)] } :=
    ⟨h.below, h.counted, h.many⟩
  exact counts_installFd_other hsame hn rfl

/-- `openat` keeps the counts of pipe ends. -/
theorem counts_sysOpenat (lower : Char → Text) (B : Backend σ)
    (hn : k.nextFd < 2 ^ 31 - 1) (dirfd : ℤ) (path : Option Text) (flags : ℕ) (t : MountTable σ) :
    (k.sysOpenat lower B dirfd path flags t).2.1.Counts rest n := by
  unfold sysOpenat
  split
  · exact h
  next p _ =>
  dsimp only
  split
  · exact counts_installFd_other h hn rfl
  unfold openFile
  dsimp only
  split
  · exact counts_installFd_other h hn rfl
  · exact h

/-- To take out a descriptor and count it. -/
theorem counts_erase {fd : ℤ} (hv : k.fds.lookup fd = some v) :
    ({ k with fds := k.fds.erase fd }.pipeRef v (-1)).Counts rest n := by
  refine .of_pipeRef (fdsBelow_erase h.below fd) (Counted.pipeRef_tail ?_) h.many
  exact h.counted.perm ((vals_perm_cons hv).append_right rest).symm

theorem counts_erase_other {fd : ℤ} (hv : k.fds.lookup fd = some v)
    (hother : v.pipeOf = none) : Counts rest n { k with fds := k.fds.erase fd } := by
  have hcounts := counts_erase h hv
  rwa [pipeRef_of_not_pipe _ hother] at hcounts

theorem counts_sysClose (fd : ℤ) (t : MountTable σ) : (k.sysClose fd t).2.1.Counts rest n := by
  unfold sysClose
  split
  · next hv => exact counts_erase_other h hv rfl
  · next hv =>
    obtain ⟨hbelow, hcounted, hmany⟩ := counts_erase_other h hv rfl
    exact ⟨hbelow, hcounted, hmany⟩
  · next hv => exact counts_erase h hv
  · exact h

theorem counts_dropFd (fd : ℤ) (t : MountTable σ) :
    (k.dropFd fd t).1.Counts rest n ∧ (k.dropFd fd t).1.pipes.length = k.pipes.length := by
  unfold dropFd
  split
  · next hv => exact ⟨counts_erase_other h hv rfl, rfl⟩
  · next v _ hv => exact ⟨counts_erase h hv, length_pipeRef _ _ _⟩
  next hv =>
  refine ⟨⟨fdsBelow_erase h.below fd, ?_, h.many⟩, rfl⟩
  exact h.counted.perm ((vals_erase_perm hv).append_right rest)

/-- `dup2` keeps the counts of pipe ends. -/
theorem counts_sysDup2 {newfd : ℤ} (hn : newfd < 2 ^ 31 - 1) (oldfd : ℤ)
    (t : MountTable σ) : (k.sysDup2 oldfd newfd t).2.1.Counts rest n := by
  unfold sysDup2
  split
  · exact h
  next v hv =>
  split
  · exact h
  dsimp only
  obtain ⟨hcounts, hlen⟩ := counts_dropFd h newfd t
  have hdrop := toProcState_dropFd k newfd t
  generalize (k.dropFd newfd t).1 = k1 at hcounts hdrop hlen
  -- The new descriptor takes the place of the one that was dropped.
  have hfree : k1.fds.lookup newfd = none := by
    rw [hdrop]
    exact lookup_erase _ _
  have hcons : Counted ({ k1 with fds := k1.fds.insert newfd v }.pipeRef v 1).pipes
      (v :: (vals k1.fds ++ rest)) := by
    refine Counted.pipeRef_cons hcounts.counted fun i hi => ?_
    show i < k1.pipes.length
    rw [hlen]
    exact h.ends_lookup hv i hi
  have hstate := toProcState_pipeRef { k1 with fds := k1.fds.insert newfd v } v 1
  have hmany : n ≤ ({ k1 with fds := k1.fds.insert newfd v }.pipeRef v 1).pipes.length := by
    rw [length_pipeRef]
    exact hcounts.many
  generalize { k1 with fds := k1.fds.insert newfd v }.pipeRef v 1 = k2 at hcons hstate hmany ⊢
  have hfds2 : k2.fds = k1.fds.insert newfd v := congrArg ProcState.fds hstate
  refine ⟨?_, ?_, hmany⟩
  · rw [hstate]
    exact fdsBelow_insert hcounts.below hn v
  show Counted k2.pipes (vals k2.fds ++ rest)
  rw [hfds2]
  exact hcons.perm ((vals_insert_perm hfree).append_right rest)

omit h

/-- A read takes bytes out of a pipe at most. A read that waits does so for an end that is held. -/
theorem counts_sysRead (B : Backend σ) (h : k.Counts rest n) (fd : ℤ) (len : ℕ) (writable : Bool)
    (received : ℤ) (t : MountTable σ) :
    (k.sysRead B fd len writable received t).2.2.1.Counts rest n ∧
      ∀ i, (k.sysRead B fd len writable received t).2.1 = some i →
        i < (k.sysRead B fd len writable received t).2.2.1.pipes.length := by
  unfold sysRead
  split
  · exact ⟨h, fun i hi => nomatch hi⟩
  · exact ⟨h, fun i hi => nomatch hi⟩
  · next j hv =>
    split
    · exact ⟨h, fun i hi => nomatch hi⟩
    next p hp =>
    split
    · refine ⟨h, fun i hi => ?_⟩
      split at hi
      · cases hi
        exact h.ends_lookup hv j rfl
      · cases hi
    refine ⟨⟨h.below, h.counted.of_buffers (by simp) ?_, ?_⟩, fun i hi => nomatch hi⟩
    rotate_left
    · show n ≤ (k.pipes.set j _).length
      rw [length_set]
      exact h.many
    intro i q hq
    by_cases hij : j = i
    · have hlt : j < k.pipes.length := h.ends_lookup hv j rfl
      rw [← hij, List.getElem?_set_self hlt] at hq
      cases hq
      exact ⟨p, hij ▸ hp, rfl, rfl⟩
    · rw [List.getElem?_set_ne hij] at hq
      exact ⟨q, hq, rfl, rfl⟩
  · exact ⟨h, fun i hi => nomatch hi⟩
  · exact ⟨h, fun i hi => nomatch hi⟩
  · exact ⟨h, fun i hi => nomatch hi⟩

/-- `write` keeps the counts of pipe ends. -/
theorem counts_sysWrite (B : Backend σ) (h : k.Counts rest n) (fd : ℤ) (data : Bytes) (sent : ℤ)
    (t : MountTable σ) : (k.sysWrite B fd data sent t).2.1.Counts rest n := by
  unfold sysWrite
  split
  · exact h
  · exact h
  · exact h
  · next j hv =>
    refine ⟨h.below, h.counted.of_buffers (by simp) ?_, ?_⟩
    rotate_left
    · show n ≤ (k.pipes.modify j _).length
      rw [length_modify]
      exact h.many
    intro i q hq
    rw [List.getElem?_modify] at hq
    obtain ⟨q0, hq0, rfl⟩ := map_eq_some_iff.1 hq
    refine ⟨q0, hq0, ?_, ?_⟩ <;> split <;> rfl
  · exact h
  · exact h

end Kernel

/-! ## Parked processes -/

namespace Sched

variable {σ : Type} {s : Sched σ}

/-- Some process is parked for a reason. -/
def Parked (b : Block) (s : Sched σ) : Prop :=
  ∃ pid p, s.procs.lookup pid = some p ∧ p.state = .blocked b

/-- Waking parks nobody. -/
theorem parked_of_wake {ready : Block → Bool} (h : (s.wake ready).Parked b) : s.Parked b := by
  obtain ⟨pid, p, hp, hstate⟩ := h
  rw [lookup_wake] at hp
  obtain ⟨p0, hp0, rfl⟩ := map_eq_some_iff.1 hp
  refine ⟨pid, p0, hp0, ?_⟩
  -- A process that is parked afterwards has not been woken.
  change wokenState s.kernel ready p0.state = .blocked b at hstate
  unfold wokenState at hstate
  split at hstate
  · next heq =>
    split at hstate
    · cases hstate
    · rw [heq, hstate]
  · exact hstate

/-- A switch parks nobody. -/
theorem parked_of_switch {idx : ℤ} (h : (s.switch idx).Parked b) : s.Parked b := by
  have hsave : s.save.Parked b → s.Parked b := by
    rintro ⟨pid, p, hp, hstate⟩
    obtain ⟨p0, hp0, hsame, -⟩ := lookup_save hp
    exact ⟨pid, p0, hp0, hsame ▸ hstate⟩
  unfold switch at h
  split at h
  · exact h
  dsimp only at h
  split at h
  · exact hsave h
  · exact hsave h

theorem parked_of_round {ready : Block → Bool} (h : (s.round ready).Parked b) : s.Parked b := by
  unfold round at h
  dsimp only at h
  split at h
  · exact parked_of_wake h
  · exact parked_of_wake (parked_of_switch h)

/-- A change of the process that runs parks at most that one. -/
theorem parked_of_setCur {f : Proc → Proc} (h : (s.setCur f).Parked b) :
    s.Parked b ∨ ∃ p, s.procs.lookup s.cur = some p ∧ (f p).state = .blocked b := by
  unfold setCur at h
  split at h
  · exact .inl h
  next p hp =>
  obtain ⟨pid, q, hq, hstate⟩ := h
  obtain ⟨-, rfl⟩ | ⟨-, hq⟩ := lookup_insert_eq_some.1 hq
  · exact .inr ⟨p, hp, hstate⟩
  · exact .inl ⟨pid, q, hq, hstate⟩

theorem parked_of_setCur_same {f : Proc → Proc} (h : (s.setCur f).Parked b)
    (hf : ∀ p, (f p).state = p.state) : s.Parked b := by
  obtain hold | ⟨p, hp, hstate⟩ := parked_of_setCur h
  · exact hold
  · exact ⟨s.cur, p, hp, hf p ▸ hstate⟩

theorem parked_of_park {b b' : Block} (h : (s.park b').Parked b) : b = b' ∨ s.Parked b := by
  obtain hold | ⟨p, -, hstate⟩ := parked_of_setCur (s := s) h
  · exact .inr hold
  · exact .inl (PState.blocked.inj hstate).symm

/-- An exit parks nobody. -/
theorem parked_of_exitProc {code : ℤ} (h : (s.exitProc code).Parked b) : s.Parked b := by
  unfold exitProc at h
  split at h
  · exact h
  next p hp =>
  obtain ⟨pid, q, hq, hstate⟩ := h
  dsimp only at hq
  have hzombie : ∀ pid q, (s.procs.insert s.cur
      { p with state := .zombie (waitStatus code) }).lookup pid = some q →
      q.state = .blocked b → s.Parked b := by
    intro pid q hq hstate
    obtain ⟨-, rfl⟩ | ⟨-, hq⟩ := lookup_insert_eq_some.1 hq
    · cases hstate
    · exact ⟨pid, q, hq, hstate⟩
  split at hq
  · exact hzombie pid q hq hstate
  next parent hparent =>
  by_cases heq : pid = p.ppid
  · rw [heq, lookup_insert] at hq
    cases hq
    refine hzombie p.ppid parent hparent ?_
    change parentState parent.state = .blocked b at hstate
    unfold parentState at hstate
    split at hstate
    · cases hstate
    · exact hstate
  · rw [lookup_insert_ne heq] at hq
    exact hzombie pid q hq hstate

/-- A fork parks nobody. -/
theorem parked_of_doFork (h : s.doFork.Parked b) : s.Parked b := by
  unfold doFork at h
  split at h
  · exact h
  next slot s1 hslot =>
  have hprocs : s1.procs = s.procs := by
    unfold takeSlot at hslot
    split at hslot
    · cases hslot
      rfl
    split at hslot
    · cases hslot
      rfl
    · cases hslot
  obtain ⟨pid, q, hq, hstate⟩ := h
  generalize hs2 : s1.setCur (fun p => { p with children := p.children ++ [s1.nextPid] }) = s2 at hq
  change (s2.procs.insert s2.nextPid _).lookup pid = some q at hq
  have hparked : s2.Parked b := by
    obtain ⟨-, rfl⟩ | ⟨-, hq⟩ := lookup_insert_eq_some.1 hq
    · cases hstate
    · exact ⟨pid, q, hq, hstate⟩
  rw [← hs2] at hparked
  obtain ⟨pid', p, hp, hstate'⟩ := parked_of_setCur_same hparked fun _ => rfl
  exact ⟨pid', p, hprocs ▸ hp, hstate'⟩

/-- `wait4` parks at most its caller, for a child. -/
theorem parked_of_doWait4 {target : ℤ} {wnohang : Bool}
    (h : (s.doWait4 target wnohang).Parked b) : b = .wait4 ∨ s.Parked b := by
  unfold doWait4 at h
  split at h
  · exact .inr h
  split at h
  · next pid hpid =>
    obtain ⟨pid', q, hq, hstate⟩ := parked_of_setCur_same h fun _ => rfl
    exact .inr ⟨pid', q, (lookup_erase_eq_some.1 hq).2, hstate⟩
  split at h
  · exact parked_of_park h
  · exact .inr h

/-! ## Runs -/

/-- The counts are exact, and the pipes that processes wait for exist. -/
structure PipesExact (s : Sched σ) : Prop where
  wellFormed : s.WellFormed
  counted : Counted s.kernel.pipes s.descriptors
  parked : ∀ i, s.Parked (.pipe i) → i < s.kernel.pipes.length

/-- The counts of every pipe are the numbers of the descriptors of live processes. -/
def CountsExact (s : Sched σ) : Prop :=
  ∀ i pipe, s.kernel.pipes[i]? = some pipe →
    pipe.readers = (s.descriptors.count (.pipeRead i) : ℤ) ∧
      pipe.writers = (s.descriptors.count (.pipeWrite i) : ℤ)

/-- The process that runs holds no end of a pipe. -/
def NoPipes (s : Sched σ) : Prop := ∀ v ∈ vals s.kernel.fds, v.pipeOf = none

/-- The invariant of runs gives exact counts. -/
theorem PipesExact.countsExact (h : s.PipesExact) : s.CountsExact :=
  fun i pipe hpipe => ⟨h.counted.readers i pipe hpipe, h.counted.writers i pipe hpipe⟩

/-- The counts are exact at the start. -/
theorem pipesExact_initial (k : Kernel) (brk : ℕ) (vfs : MountTable σ) :
    (initial (k.init brk) vfs).PipesExact where
  wellFormed := wellFormed_initial _ (fdsBelow_init k brk) vfs
  counted := by
    rw [descriptors_initial]
    refine ⟨fun i p hp => (nomatch hp), fun i p hp => (nomatch hp), ?_⟩
    have hstd : ∀ v ∈ vals stdFds, v.pipeOf = none := by decide
    intro v hv i hi
    rw [hstd v hv] at hi
    cases hi
  parked i hi := by
    obtain ⟨pid, p, hp, hstate⟩ := hi
    have hmem := mem_lookup_iff.1 hp
    change (⟨pid, p⟩ : Sigma fun _ : ℤ => Proc) ∈ [⟨1, _⟩] at hmem
    cases mem_singleton.1 hmem
    cases hstate

variable (h : s.PipesExact) (hl : s.loaded = some s.cur)

include h hl

theorem PipesExact.counts : s.kernel.Counts s.others s.kernel.pipes.length := by
  refine ⟨h.wellFormed.fds, ?_, le_rfl⟩
  rw [← descriptors_running hl]
  exact h.counted

/-- A call that changes the kernel alone. -/
theorem PipesExact.kernel {kernel : Kernel} (hk : kernel.Counts s.others s.kernel.pipes.length)
    (vfs : MountTable σ) : ({ s with kernel, vfs } : Sched σ).PipesExact where
  wellFormed := wellFormed_kernel h.wellFormed hk.below vfs
  counted := by
    rw [descriptors_kernel hl]
    exact hk.counted
  parked i hi := (h.parked i hi).trans_le hk.many

/-- Parking at a pipe that exists keeps the counts exact. -/
theorem pipesExact_park (hb : ∀ i, b = .pipe i → i < s.kernel.pipes.length) :
    (s.park b).PipesExact := by
  obtain ⟨hwf, hsame⟩ := park_spec h.wellFormed hl b
  obtain ⟨hkernel, -⟩ := park_shared (s := s) b
  refine ⟨hwf, ?_, ?_⟩
  · rw [hsame, hkernel]
    exact h.counted
  intro i hi
  rw [hkernel]
  obtain heq | hold := parked_of_park hi
  · exact hb i heq.symm
  · exact h.parked i hold

/-- A process may exit when it holds no end of a pipe. -/
theorem pipesExact_exitProc (hnone : s.NoPipes) (code : ℤ) : (s.exitProc code).PipesExact := by
  obtain ⟨hwf, hperm, hkernel, -⟩ := exitProc_spec h.wellFormed hl code
  refine ⟨hwf, ?_, ?_⟩
  · rw [hkernel]
    exact ((h.counts hl).counted.drop_others hnone).perm hperm
  intro i hi
  rw [hkernel]
  exact h.parked i (parked_of_exitProc hi)

/-- When the counts are exact behind an exit, the process held no end of a pipe. -/
theorem noPipes_of_exitProc {code : ℤ} (hcounts : (s.exitProc code).CountsExact) : s.NoPipes := by
  obtain ⟨-, hperm, hkernel, -⟩ := exitProc_spec h.wellFormed hl code
  have hbefore := (h.counts hl).counted
  intro v hv
  by_contra hne
  obtain ⟨i, hi⟩ := Option.ne_none_iff_exists'.1 hne
  have hlt := hbefore.ends v (mem_append_left _ hv) i hi
  obtain ⟨pipe, hpipe⟩ : ∃ pipe, s.kernel.pipes[i]? = some pipe := ⟨_, List.getElem?_eq_getElem hlt⟩
  -- The end that the process held is counted before, and not behind.
  obtain ⟨hreaders, hwriters⟩ := hcounts i pipe (by rw [hkernel, hpipe])
  have hreaders' := hbefore.readers i pipe hpipe
  have hwriters' := hbefore.writers i pipe hpipe
  rw [hperm.count_eq] at hreaders hwriters
  rw [count_append] at hreaders' hwriters'
  have hpos := count_pos_iff.2 hv
  cases v with
  | pipeRead j =>
    cases hi
    omega
  | pipeWrite j =>
    cases hi
    omega
  | _ => cases hi

/-- A fork keeps the counts exact. -/
theorem pipesExact_doFork (hpid : s.nextPid < 2 ^ 31 - 1) : s.doFork.PipesExact := by
  obtain ⟨hwf, -, ⟨hkernel, hsame⟩ | ⟨hkernel, hperm⟩⟩ := doFork_spec h.wellFormed hl hpid
  · refine ⟨hwf, ?_, ?_⟩
    · rw [hkernel, hsame]
      exact h.counted
    intro i hi
    rw [hkernel]
    exact h.parked i (parked_of_doFork hi)
  have hends : ∀ v ∈ vals s.kernel.fds, ∀ i, v.pipeOf = some i → i < s.kernel.pipes.length :=
    fun v hv => (h.counts hl).counted.ends v (mem_append_left _ hv)
  have hcounted : Counted s.kernel.forkDupPipes.pipes (vals s.kernel.fds ++ s.descriptors) :=
    h.counted.foldl_pipeRef hends
  refine ⟨hwf, ?_, ?_⟩
  · rw [hkernel]
    exact hcounted.perm hperm
  intro i hi
  rw [hkernel, length_forkDupPipes]
  exact h.parked i (parked_of_doFork hi)

theorem pipesExact_doWait4 (target : ℤ) (wnohang : Bool) :
    (s.doWait4 target wnohang).PipesExact := by
  obtain ⟨hwf, hperm, hkernel, -⟩ := doWait4_spec h.wellFormed hl target wnohang
  refine ⟨hwf, ?_, ?_⟩
  · rw [hkernel]
    exact h.counted.perm hperm
  intro i hi
  rw [hkernel]
  obtain heq | hold := parked_of_doWait4 hi
  · cases heq
  · exact h.parked i hold

omit hl in
theorem pipesExact_round (ready : Block → Bool) : (s.round ready).PipesExact := by
  obtain ⟨hwf, hperm, hpipes, -⟩ := round_spec h.wellFormed ready
  refine ⟨hwf, ?_, ?_⟩
  · rw [hpipes]
    exact h.counted.perm hperm
  intro i hi
  rw [hpipes]
  exact h.parked i (parked_of_round hi)

end Sched

namespace Event

open Kernel Sched

variable {σ : Type} {s s' : Sched σ} {lower : Char → Text} {B : Backend σ}

/-- No process exits, or is killed, that holds an end of a pipe. -/
def ExitsWithoutPipes (e : Event) (s : Sched σ) : Prop :=
  match e with
  | .exit _ | .kill _ => s.NoPipes
  | _ => True

/-- A call keeps the counts exact, unless a process exits with pipes open. -/
theorem pipesExact_call (h : s.PipesExact) (hl : s.loaded = some s.cur) {e : Event}
    (hrange : e.InRange s) (hexit : e.ExitsWithoutPipes s) : (e.call lower B s).PipesExact := by
  have hcounts := h.counts hl
  cases e with
  | round ready => exact pipesExact_round h ready
  | openat dirfd path flags =>
    exact h.kernel hl (counts_sysOpenat hcounts lower B hrange dirfd path flags s.vfs) _
  | close fd => exact h.kernel hl (counts_sysClose hcounts fd s.vfs) _
  | dup oldfd => exact h.kernel hl (counts_sysDup hcounts hrange oldfd) s.vfs
  | dup2 oldfd newfd => exact h.kernel hl (counts_sysDup2 hcounts hrange oldfd s.vfs) _
  | fcntl fd cmd => exact h.kernel hl (counts_sysFcntl hcounts hrange fd cmd) s.vfs
  | pipe writable => exact h.kernel hl (counts_sysPipe hcounts hrange writable) s.vfs
  | socket domain ty => exact h.kernel hl (counts_sysSocket hcounts hrange domain ty) s.vfs
  | read fd len writable received =>
    obtain ⟨hread, hwaits⟩ := counts_sysRead B hcounts fd len writable received s.vfs
    dsimp only [call]
    generalize s.kernel.sysRead B fd len writable received s.vfs = r at hread hwaits ⊢
    obtain ⟨_, waits, kernel, vfs⟩ := r
    have hsame := h.kernel hl hread vfs
    cases waits with
    | none => exact hsame
    | some i =>
      refine pipesExact_park hsame hl fun j hj => ?_
      cases hj
      exact hwaits i rfl
  | write fd data sent => exact h.kernel hl (counts_sysWrite B hcounts fd data sent s.vfs) _
  | lseek fd off whence => exact h.kernel hl hcounts _
  | fork => exact pipesExact_doFork h hl hrange
  | wait4 target wnohang => exact pipesExact_doWait4 h hl target wnohang
  | exit code => exact pipesExact_exitProc h hl hexit code
  | kill sig => exact pipesExact_exitProc h hl hexit (128 + sig)
  | other p =>
    have hother : Kernel.Counts s.others s.kernel.pipes.length { s.kernel with
        toProcState := { p with fds := s.kernel.fds, nextFd := s.kernel.nextFd } } :=
      ⟨hcounts.below, hcounts.counted, hcounts.many⟩
    exact h.kernel hl hother s.vfs

/-- A step keeps the counts exact, unless a process exits with pipes. -/
theorem pipesExact_step (h : s.PipesExact) {e : Event} (hrange : e.InRange s)
    (hexit : e.ExitsWithoutPipes s) (hstep : e.step lower B s = some s') : s'.PipesExact := by
  unfold step at hstep
  split at hstep
  · cases hstep
    exact pipesExact_round h _
  split at hstep
  · next hl =>
    cases hstep
    exact pipesExact_call h hl hrange hexit
  · cases hstep

/-- When the counts are exact behind a step, no process has exited with an end of a pipe. -/
theorem exitsWithoutPipes_of_step (h : s.PipesExact) {e : Event}
    (hstep : e.step lower B s = some s') (hcounts : s'.CountsExact) : e.ExitsWithoutPipes s := by
  cases e with
  | exit code | kill sig =>
    obtain ⟨hl, hcall⟩ := Option.ite_none_right_eq_some.1 hstep
    cases hcall
    exact noPipes_of_exitProc h hl hcounts
  | _ => trivial

/-- A process that waits for a pipe goes on when there are bytes or no process can write. -/
theorem state_wake_iff (h : s.PipesExact) {pid : ℤ} {p : Proc} {i : ℕ}
    (hp : s.procs.lookup pid = some p) (hstate : p.state = .blocked (.pipe i))
    (ready : Block → Bool) : ((s.wake ready).procs.lookup pid).map Proc.state = some .runnable ↔
      (∃ pipe, s.kernel.pipes[i]? = some pipe ∧ pipe.buf ≠ []) ∨
        Fd.pipeWrite i ∉ s.descriptors := by
  have hlt : i < s.kernel.pipes.length := h.parked i ⟨pid, p, hp, hstate⟩
  obtain ⟨pipe, hpipe⟩ : ∃ pipe, s.kernel.pipes[i]? = some pipe := ⟨_, List.getElem?_eq_getElem hlt⟩
  have hwriters := h.counted.writers i pipe hpipe
  have hwoken : ((s.wake ready).procs.lookup pid).map Proc.state = some .runnable ↔
      s.kernel.pipeReadable i = true := by
    rw [lookup_wake, hp]
    show some (wokenState s.kernel ready p.state) = some .runnable ↔ _
    rw [hstate]
    show some (if s.kernel.pipeReadable i then PState.runnable else _) = some .runnable ↔ _
    split <;> simp_all
  rw [hwoken]
  unfold pipeReadable
  rw [hpipe]
  have hzero : pipe.writers ≤ 0 ↔ Fd.pipeWrite i ∉ s.descriptors := by
    rw [hwriters, ← count_eq_zero]
    omega
  simp [← hzero]

/-- In a run in which no process exits with an end of a pipe, the counts of every pipe are the
numbers of the descriptors of live processes, and a process that waits for a pipe goes on exactly
when there are bytes, or when no live process holds the end for writing. A step of such a run keeps
the counts exact exactly when it is no exit with an end of a pipe. -/
theorem pipe_counts_exact (lower : Char → Text) (B : Backend σ) (k : Kernel) (brk : ℕ)
    (vfs : MountTable σ) {s : Sched σ}
    (hrun : Reaches lower B (fun e s => e.InRange s ∧ e.ExitsWithoutPipes s)
      (initial (k.init brk) vfs) s) :
    s.CountsExact ∧
    (∀ pid p i, s.procs.lookup pid = some p → p.state = .blocked (.pipe i) → ∀ ready,
      (((s.wake ready).procs.lookup pid).map Proc.state = some .runnable ↔
        (∃ pipe, s.kernel.pipes[i]? = some pipe ∧ pipe.buf ≠ []) ∨
          Fd.pipeWrite i ∉ s.descriptors)) ∧
    ∀ (e : Event) (s' : Sched σ), e.InRange s → e.step lower B s = some s' →
      (s'.CountsExact ↔ e.ExitsWithoutPipes s) := by
  have hexact : s.PipesExact := by
    refine hrun.induction (pipesExact_initial k brk vfs) fun s e s' h hok hstep => ?_
    exact pipesExact_step h hok.1 hok.2 hstep
  refine ⟨hexact.countsExact, fun pid p i hp hstate => state_wake_iff hexact hp hstate,
    fun e s' hrange hstep => ⟨exitsWithoutPipes_of_step hexact hstep, fun hexit => ?_⟩⟩
  exact (pipesExact_step hexact hrange hexit hstep).countsExact

/-- A process makes a pipe, forks, closes the end for writing and reads. -/
def readerRun : List Event :=
  [.round fun _ => false, .pipe true, .fork, .close 4, .read 3 1 true 0]

/-- A process that waits while its child can write. -/
theorem pipe_counts_exact_reader :
    ∃ s, run asciiLower ProcFs.backend readerRun (initial (Kernel.fresh.init 0) ProcFs.sample) =
      some s ∧
      (s.procs.lookup 1).map Proc.state = some (.blocked (.pipe 0)) ∧
      s.CountsExact ∧
      ∀ ready, ((s.wake ready).procs.lookup 1).map Proc.state = some .runnable ↔
        (∃ pipe, s.kernel.pipes[0]? = some pipe ∧ pipe.buf ≠ []) ∨
          Fd.pipeWrite 0 ∉ s.descriptors := by
  have hrun : Reaches asciiLower ProcFs.backend (fun e s => e.InRange s ∧ e.ExitsWithoutPipes s)
      (initial (Kernel.fresh.init 0) ProcFs.sample) _ :=
    .head ⟨.round fun _ => false, ⟨trivial, trivial⟩, rfl⟩ <|
    .head ⟨.pipe true, ⟨(by decide : (3 : ℤ) < 2 ^ 31 - 2), trivial⟩, rfl⟩ <|
    .head ⟨.fork, ⟨(by decide +kernel : (2 : ℤ) < 2 ^ 31 - 1), trivial⟩, rfl⟩ <|
    .head ⟨.close 4, ⟨trivial, trivial⟩, rfl⟩ <|
    .single ⟨.read 3 1 true 0, ⟨trivial, trivial⟩, rfl⟩
  obtain ⟨hcounts, hwake, -⟩ := pipe_counts_exact asciiLower ProcFs.backend Kernel.fresh 0
    ProcFs.sample hrun
  refine ⟨_, rfl, rfl, hcounts, ?_⟩
  exact hwake 1 _ 0 rfl rfl

/-- The child exits with the end for writing. -/
def lostWriter : List Event := readerRun ++ [.round fun _ => false, .exit 0]

/-- A child that exits with the end for writing leaves the count of writers at one, and its parent
waits for ever. -/
theorem not_pipe_counts_exact :
    ∃ s pipe, run asciiLower ProcFs.backend lostWriter
        (initial (Kernel.fresh.init 0) ProcFs.sample) = some s ∧
      s.kernel.pipes[0]? = some pipe ∧ pipe.buf = [] ∧
      s.descriptors.count (.pipeWrite 0) = 0 ∧ pipe.writers = 1 ∧
      (s.procs.lookup 1).map Proc.state = some (.blocked (.pipe 0)) ∧
      ∀ ready, ((s.wake ready).procs.lookup 1).map Proc.state = some (.blocked (.pipe 0)) := by
  refine ⟨_, _, rfl, rfl, ?_, ?_, ?_, ?_, ?_⟩
  · decide +kernel
  · decide
  · decide +kernel
  · decide +kernel
  · exact fun ready => rfl

end Event

end Univdreams.Emulator
