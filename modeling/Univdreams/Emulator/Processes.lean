import Univdreams.Tables
import Univdreams.Emulator.Reliable

/-!
# Processes

The scheduler of `src/emulator/linux/kvm.rs`, which runs the processes of a guest in turns on one
processor. One kernel serves all of them. The state of the process that is loaded lives in the
kernel, that of every other one in its `Proc`, and what the processes share (pipes, sockets, the
mount table) is there once.

A run is a sequence of events: the loop of `schedule` comes around, or the process that is loaded
makes a system call or is killed by a signal. Memory, registers and windows are left out.

All live descriptors are `descriptors`, with one lemma for every event.
-/

namespace Univdreams.Emulator

open Tables Kernel AList List Option

/-! ## State -/

/-- `Block`: why a process is parked. -/
inductive Block where
  | stdin
  | timer (deadline : ℕ)
  | wait4
  | pipe (i : ℕ)
  deriving DecidableEq, Repr

/-- `PState`. -/
inductive PState where
  | runnable
  | blocked (b : Block)
  | zombie (status : ℤ)
  deriving DecidableEq, Repr

/-- `Proc`, without its memory and registers. -/
structure Proc where
  ppid : ℤ
  state : PState
  slot : ℕ
  kstate : ProcState
  children : List ℤ

/-- `MAX_SLOTS`. -/
def maxSlots : ℕ := 16

/-- The state of `schedule`. -/
structure Sched (σ : Type) where
  kernel : Kernel
  vfs : MountTable σ
  procs : AList fun _ : ℤ => Proc
  order : List ℤ
  nextPid : ℤ
  nextSlot : ℕ
  freeSlots : List ℕ
  loaded : Option ℤ
  cur : ℤ

/-- Whether a process has exited. -/
def PState.isZombie : PState → Bool
  | .zombie _ => true
  | _ => false

namespace Sched

variable {σ : Type}

/-- The first process, with the kernel and the files of the guest. -/
def initial (kernel : Kernel) (vfs : MountTable σ) : Sched σ :=
  { kernel, vfs
    procs := AList.singleton 1 ⟨0, .runnable, 0, kernel.procSnapshot, []⟩
    order := [1], nextPid := 2, nextSlot := 1, freeSlots := [], loaded := none, cur := 1 }

/-! ## The loop -/

variable (k : Kernel) (ready : Block → Bool) (target : ℤ) (s : Sched σ)

/-- Whether a parked process can go on. Timers and input are given by `ready`. -/
def wakes : Block → Bool
  | .wait4 => false
  | .pipe i => k.pipeReadable i
  | b => ready b

/-- The state of a process after the first part of the loop. -/
def wokenState : PState → PState
  | .blocked b => if wakes k ready b then .runnable else .blocked b
  | st => st

/-- The first part of the loop: wake the processes that can go on. -/
def wake : Sched σ :=
  { s with
    procs := mapVals (fun p => { p with state := wokenState s.kernel ready p.state }) s.procs }

/-- `pick_runnable`: the first runnable process behind `cur` in the order, around its end. -/
def pickRunnable : Option ℤ :=
  let start := if s.cur ∈ s.order then s.order.idxOf s.cur + 1 else 0
  ((s.order.rotate start).find? fun pid =>
    (s.procs.lookup pid).any fun p => p.state = .runnable)

/-- Save the state of the process that is loaded. -/
def save : Sched σ :=
  match s.loaded with
  | none => s
  | some pid =>
    match s.procs.lookup pid with
    | none => s
    | some p => { s with procs := s.procs.insert pid { p with kstate := s.kernel.procSnapshot } }

/-- The context switch. -/
def switch (idx : ℤ) (s : Sched σ) : Sched σ :=
  if s.loaded = some idx then { s with cur := idx }
  else
    let s := s.save
    match s.procs.lookup idx with
    | none => s
    | some p =>
      { s with
        kernel := { s.kernel.procRestore p.kstate with currentTid := idx }
        loaded := some idx
        cur := idx }

/-- One round of the loop up to the point where a process runs; when none is runnable, the loop
waits. -/
def round : Sched σ :=
  let s := s.wake ready
  match s.pickRunnable with
  | none => s
  | some idx => s.switch idx

/-! ## The process that runs -/

/-- Change the process that runs, park it or end it. -/
def setCur (f : Proc → Proc) (s : Sched σ) : Sched σ :=
  match s.procs.lookup s.cur with
  | none => s
  | some p => { s with procs := s.procs.insert s.cur (f p) }

/-- Park the process that runs. -/
def park (b : Block) (s : Sched σ) : Sched σ :=
  { s.setCur fun p => { p with state := .blocked b, kstate := s.kernel.procSnapshot } with
    loaded := none }

/-- `wait_status`. -/
def waitStatus (code : ℤ) : ℤ := code % 256 * 256

/-- The state of a parent after a child has exited. -/
def parentState : PState → PState
  | .blocked .wait4 => .runnable
  | st => st

/-- `exit_proc` for the process that runs, which is not loaded any more. -/
def exitProc (code : ℤ) (s : Sched σ) : Sched σ :=
  match s.procs.lookup s.cur with
  | none => s
  | some p =>
    let procs := s.procs.insert s.cur { p with state := .zombie (waitStatus code) }
    let procs := match procs.lookup p.ppid with
      | none => procs
      | some parent => procs.insert p.ppid { parent with state := parentState parent.state }
    { s with
      procs
      freeSlots := if p.slot ≠ 0 then p.slot :: s.freeSlots else s.freeSlots
      loaded := none }

/-- The slot for a new process, and what is left. -/
def takeSlot : Option (ℕ × Sched σ) :=
  match s.freeSlots with
  | slot :: rest => some (slot, { s with freeSlots := rest })
  | [] => if s.nextSlot < maxSlots then some (s.nextSlot, { s with nextSlot := s.nextSlot + 1 })
    else none

/-- Enter a child with a copy of the state of the process that runs. -/
def addChild (slot : ℕ) (s : Sched σ) : Sched σ :=
  { s with
    procs := s.procs.insert s.nextPid ⟨s.cur, .runnable, slot, s.kernel.procSnapshot, []⟩
    kernel := s.kernel.forkDupPipes
    order := s.order ++ [s.nextPid]
    nextPid := Kernel.nextI32 s.nextPid }

/-- `do_fork`: without a slot the call fails and changes nothing. -/
def doFork : Sched σ :=
  match s.takeSlot with
  | none => s
  | some (slot, s) =>
    (s.setCur fun p => { p with children := p.children ++ [s.nextPid] }).addChild slot

/-- The low half of a 64-bit word, as an `i32`. -/
def toI32 (n : ℤ) : ℤ := (n + 2 ^ 31) % 2 ^ 32 - 2 ^ 31

/-- The zombie that `wait4` reaps: the first child that has exited. -/
def zombieChild (children : List ℤ) : Option ℤ :=
  children.find? fun pid => (target ≤ 0 ∨ toI32 target = pid) ∧
    (s.procs.lookup pid).any fun p => p.state.isZombie

/-- Whether there is a child to wait for. -/
def liveChild (children : List ℤ) : Bool :=
  children.any fun pid => (target ≤ 0 ∨ toI32 target = pid) ∧
    (s.procs.lookup pid).any fun p => ¬ p.state.isZombie

/-- `do_wait4`. -/
def doWait4 (wnohang : Bool) (s : Sched σ) : Sched σ :=
  match s.procs.lookup s.cur with
  | none => s
  | some p =>
    match s.zombieChild target p.children with
    | some pid =>
      { s with procs := s.procs.erase pid, order := s.order.filter (· ≠ pid) }.setCur
        fun p => { p with children := p.children.filter (· ≠ pid) }
    | none => if s.liveChild target p.children ∧ ¬ wnohang then s.park .wait4 else s

end Sched

/-! ## Events -/

/-- What can happen: the loop comes around, or the loaded process makes a call. A signal that is not
handled kills it. `other` changes neither descriptors nor what processes share. -/
inductive Event where
  | round (ready : Block → Bool)
  | openat (dirfd : ℤ) (path : Option Text) (flags : ℕ)
  | close (fd : ℤ)
  | dup (oldfd : ℤ)
  | dup2 (oldfd newfd : ℤ)
  | fcntl (fd : ℤ) (cmd : ℕ)
  | pipe (writable : Bool)
  | socket (domain : ℤ) (ty : ℕ)
  | read (fd : ℤ) (len : ℕ) (writable : Bool) (received : ℤ)
  | write (fd : ℤ) (data : Bytes) (sent : ℤ)
  | lseek (fd off : ℤ) (whence : ℕ)
  | fork
  | wait4 (target : ℤ) (wnohang : Bool)
  | exit (code : ℤ)
  | kill (sig : ℤ)
  | other (p : ProcState)

namespace Event

variable {σ : Type} (lower : Char → Text) (B : Backend σ)

/-- What a call of the process that runs leaves behind. -/
def call (e : Event) (s : Sched σ) : Sched σ :=
  match e with
  | .round ready => s.round ready
  | .openat dirfd path flags =>
    let (_, kernel, vfs) := s.kernel.sysOpenat lower B dirfd path flags s.vfs
    { s with kernel, vfs }
  | .close fd =>
    let (_, kernel, vfs) := s.kernel.sysClose fd s.vfs
    { s with kernel, vfs }
  | .dup oldfd => { s with kernel := (s.kernel.sysDup oldfd).2 }
  | .dup2 oldfd newfd =>
    let (_, kernel, vfs) := s.kernel.sysDup2 oldfd newfd s.vfs
    { s with kernel, vfs }
  | .fcntl fd cmd => { s with kernel := (s.kernel.sysFcntl fd cmd).2 }
  | .pipe writable => { s with kernel := (s.kernel.sysPipe writable).2 }
  | .socket domain ty => { s with kernel := (s.kernel.sysSocket domain ty).2 }
  | .read fd len writable received =>
    let (_, waits, kernel, vfs) := s.kernel.sysRead B fd len writable received s.vfs
    match waits with
    | some i => { s with kernel, vfs }.park (.pipe i)
    | none => { s with kernel, vfs }
  | .write fd data sent =>
    let (_, kernel, vfs) := s.kernel.sysWrite B fd data sent s.vfs
    { s with kernel, vfs }
  | .lseek fd off whence => { s with vfs := (s.kernel.sysLseek B fd off whence s.vfs).2 }
  | .fork => s.doFork
  | .wait4 target wnohang => s.doWait4 target wnohang
  | .exit code => s.exitProc code
  | .kill sig => s.exitProc (128 + sig)
  | .other p =>
    { s with kernel := { s.kernel with
        toProcState := { p with fds := s.kernel.fds, nextFd := s.kernel.nextFd } } }

/-- An event. The process that runs must be loaded for a call. -/
def step (e : Event) (s : Sched σ) : Option (Sched σ) :=
  match e with
  | .round ready => some (s.round ready)
  | e => if s.loaded = some s.cur then some (e.call lower B s) else none

/-- A run. -/
def run (events : List Event) (s : Sched σ) : Option (Sched σ) :=
  events.foldlM (fun s e => e.step lower B s) s

end Event

namespace Event

variable {σ : Type}

/-- The counters of descriptors and of processes, which are `i32`, do not overflow. -/
def InRange (e : Event) (s : Sched σ) : Prop :=
  match e with
  | .openat _ _ _ | .dup _ | .fcntl _ _ | .socket _ _ => s.kernel.nextFd < 2 ^ 31 - 1
  | .pipe _ => s.kernel.nextFd < 2 ^ 31 - 2
  | .dup2 _ newfd => newfd < 2 ^ 31 - 1
  | .fork => s.nextPid < 2 ^ 31 - 1
  | _ => True

/-- The states that are reached from a state by events that meet a condition. -/
def Reaches (lower : Char → Text) (B : Backend σ) (ok : Event → Sched σ → Prop) :
    Sched σ → Sched σ → Prop :=
  Relation.ReflTransGen fun s s' => ∃ e, ok e s ∧ e.step lower B s = some s'

/-- What holds at first and is kept by every event that meets the condition holds throughout. -/
theorem Reaches.induction {lower : Char → Text} {B : Backend σ} {ok : Event → Sched σ → Prop}
    {I : Sched σ → Prop} {s s' : Sched σ} (h : Reaches lower B ok s s') (hs : I s)
    (hstep : ∀ s e s', I s → ok e s → e.step lower B s = some s' → I s') : I s' := by
  induction h with
  | refl => exact hs
  | tail _ hlast ih =>
    obtain ⟨e, hok, he⟩ := hlast
    exact hstep _ e _ ih hok he

end Event

/-! ## Descriptors -/

/-- The descriptors in the saved state of a process, as long as it lives. -/
def Proc.descriptors (p : Proc) : List Fd := if p.state.isZombie then [] else vals p.kstate.fds

namespace Sched

open scoped List

variable {σ : Type} {s : Sched σ}

/-- The descriptors of the processes that are not loaded. -/
def others (s : Sched σ) : List Fd :=
  match s.loaded with
  | some pid => held Proc.descriptors (s.procs.erase pid)
  | none => held Proc.descriptors s.procs

/-- The descriptors of all live processes. -/
def descriptors (s : Sched σ) : List Fd :=
  if s.loaded.isSome then vals s.kernel.fds ++ s.others else s.others

/-- Every descriptor is below the next one. -/
def FdsBelow (p : ProcState) : Prop := ∀ fd v, p.fds.lookup fd = some v → fd < p.nextFd

theorem fdsBelow_init (k : Kernel) (brk : ℕ) : FdsBelow (k.init brk).toProcState := by
  intro fd v hv
  have hmem : (⟨fd, v⟩ : Sigma fun _ : ℤ => Fd) ∈
      [(⟨0, .stdin⟩ : Sigma fun _ : ℤ => Fd), ⟨1, .stdout⟩, ⟨2, .stderr⟩] :=
    mem_lookup_iff.1 hv
  show fd < 3
  simp only [mem_cons, Sigma.mk.injEq, not_mem_nil, or_false] at hmem
  omega

/-- What holds of the table of processes throughout a run. -/
structure WellFormed (s : Sched σ) : Prop where
  /-- The loaded process is the current one, and lives. -/
  loaded : ∀ pid, s.loaded = some pid →
    pid = s.cur ∧ ∃ p, s.procs.lookup pid = some p ∧ ¬ p.state.isZombie
  pids : ∀ pid p, s.procs.lookup pid = some p → pid < s.nextPid
  fds : FdsBelow s.kernel.toProcState
  kstates : ∀ pid p, s.procs.lookup pid = some p → FdsBelow p.kstate

theorem descriptors_of_loaded {pid : ℤ} (h : s.loaded = some pid) :
    s.descriptors = vals s.kernel.fds ++ held Proc.descriptors (s.procs.erase pid) := by
  unfold descriptors others
  rw [h]
  rfl

theorem descriptors_of_not_loaded (h : s.loaded = none) :
    s.descriptors = held Proc.descriptors s.procs := by
  unfold descriptors others
  rw [h]
  rfl

/-- The scheduler is well formed at the start. -/
theorem wellFormed_initial (k : Kernel) (hk : FdsBelow k.toProcState) (vfs : MountTable σ) :
    (initial k vfs).WellFormed := by
  have hlookup : ∀ pid p, (initial k vfs).procs.lookup pid = some p →
      pid = 1 ∧ p = ⟨0, .runnable, 0, k.procSnapshot, []⟩ := by
    intro pid p hp
    have hmem := mem_lookup_iff.1 hp
    change (⟨pid, p⟩ : Sigma fun _ : ℤ => Proc) ∈ [⟨1, _⟩] at hmem
    cases mem_singleton.1 hmem
    exact ⟨rfl, rfl⟩
  refine ⟨?_, ?_, hk, ?_⟩
  · intro pid hpid
    cases hpid
  · intro pid p hp
    obtain ⟨rfl, -⟩ := hlookup pid p hp
    show (1 : ℤ) < 2
    decide
  intro pid p hp
  obtain ⟨-, rfl⟩ := hlookup pid p hp
  exact hk

theorem descriptors_initial (k : Kernel) (vfs : MountTable σ) :
    (initial k vfs).descriptors = vals k.fds := by
  rw [descriptors_of_not_loaded rfl]
  exact append_nil _

/-- A change of the kernel alone. -/
theorem descriptors_kernel (h : s.loaded = some s.cur) (kernel : Kernel) (vfs : MountTable σ) :
    ({ s with kernel, vfs } : Sched σ).descriptors = vals kernel.fds ++ s.others := by
  unfold descriptors others
  rw [h]
  rfl

theorem descriptors_running (h : s.loaded = some s.cur) :
    s.descriptors = vals s.kernel.fds ++ s.others :=
  descriptors_kernel h s.kernel s.vfs

/-- A change of the other processes that leaves the live descriptors of each one. -/
theorem descriptors_perm {s' : Sched σ} {pid : ℤ} (hl : s.loaded = some pid)
    (hl' : s'.loaded = some pid) (hfds : s'.kernel.fds = s.kernel.fds)
    (h : ∀ a, a ≠ pid → heldAt Proc.descriptors s'.procs a = heldAt Proc.descriptors s.procs a) :
    s'.descriptors ~ s.descriptors := by
  rw [descriptors_of_loaded hl, descriptors_of_loaded hl', hfds]
  refine List.Perm.append_left _ (held_perm fun a => ?_)
  by_cases ha : a = pid
  · rw [ha, heldAt_erase, heldAt_erase]
  · rw [heldAt_erase_ne ha, heldAt_erase_ne ha, h a ha]

theorem isZombie_wokenState (k : Kernel) (ready : Block → Bool) (st : PState) :
    (wokenState k ready st).isZombie = st.isZombie := by
  cases st with
  | runnable => rfl
  | zombie status => rfl
  | blocked b =>
    show (if wakes k ready b then PState.runnable else .blocked b).isZombie = false
    split <;> rfl

theorem isZombie_parentState (st : PState) : (parentState st).isZombie = st.isZombie := by
  unfold parentState
  split <;> rfl

/-- A change of the kernel keeps the table of processes. -/
theorem wellFormed_kernel (h : s.WellFormed) {kernel : Kernel} (hfds : FdsBelow kernel.toProcState)
    (vfs : MountTable σ) : ({ s with kernel, vfs } : Sched σ).WellFormed :=
  ⟨h.loaded, h.pids, hfds, h.kstates⟩

theorem nextI32_of_lt {n : ℤ} (h : n < 2 ^ 31 - 1) : nextI32 n = n + 1 := if_neg (by omega)

/-- A new descriptor, as long as the counter does not overflow. -/
theorem installFd_spec {k : Kernel} (hk : FdsBelow k.toProcState) (hn : k.nextFd < 2 ^ 31 - 1)
    (v : Fd) : FdsBelow (k.installFd v).2.toProcState ∧
      vals (k.installFd v).2.fds ~ v :: vals k.fds ∧
      (k.installFd v).2.nextFd = k.nextFd + 1 := by
  have hsucc := nextI32_of_lt hn
  have hnew : k.fds.lookup k.nextFd = none := by
    cases hv : k.fds.lookup k.nextFd with
    | none => rfl
    | some v => exact absurd (hk _ v hv) (lt_irrefl _)
  refine ⟨?_, vals_insert_perm hnew, hsucc⟩
  show ∀ fd w, (k.fds.insert k.nextFd v).lookup fd = some w → fd < nextI32 k.nextFd
  rw [hsucc]
  exact forall_insert (fun fd w hw => (hk fd w hw).trans (lt_add_one _)) (lt_add_one _)

/-- Fewer descriptors are below the next one too. -/
theorem fdsBelow_erase {k : ProcState} (hk : FdsBelow k) (fd : ℤ) :
    FdsBelow { k with fds := k.fds.erase fd } :=
  forall_erase hk

/-- A descriptor with a number of its own. -/
theorem fdsBelow_insert {k : ProcState} (hk : FdsBelow k) {fd : ℤ} (hfd : fd < 2 ^ 31 - 1)
    (v : Fd) :
    FdsBelow { k with fds := k.fds.insert fd v
                      nextFd := if k.nextFd ≤ fd then nextI32 fd else k.nextFd } := by
  rw [nextI32_of_lt hfd]
  refine forall_insert (fun fd' w hw => ?_) (by dsimp only; split <;> omega)
  have := hk fd' w hw
  dsimp only
  split <;> omega

/-! ### The loop -/

theorem lookup_wake (ready : Block → Bool) (pid : ℤ) :
    (s.wake ready).procs.lookup pid = (s.procs.lookup pid).map fun p =>
      { p with state := wokenState s.kernel ready p.state } :=
  lookup_mapVals _ pid

/-- Waking keeps the scheduler well formed. -/
theorem wellFormed_wake (h : s.WellFormed) (ready : Block → Bool) : (s.wake ready).WellFormed := by
  constructor
  · intro pid hpid
    obtain ⟨hcur, p, hp, hlive⟩ := h.loaded pid hpid
    refine ⟨hcur, { p with state := wokenState s.kernel ready p.state }, ?_, ?_⟩
    · rw [lookup_wake, hp]
      rfl
    · rwa [isZombie_wokenState]
  · intro pid p hp
    rw [lookup_wake] at hp
    obtain ⟨p₀, hp₀, -⟩ := Option.map_eq_some_iff.1 hp
    exact h.pids pid p₀ hp₀
  · exact h.fds
  · intro pid p hp
    rw [lookup_wake] at hp
    obtain ⟨p₀, hp₀, rfl⟩ := Option.map_eq_some_iff.1 hp
    exact h.kstates pid p₀ hp₀

/-- Waking keeps the descriptors. -/
theorem descriptors_wake (ready : Block → Bool) : (s.wake ready).descriptors ~ s.descriptors := by
  have hstate : ∀ p : Proc, Proc.descriptors
      { p with state := wokenState s.kernel ready p.state } = p.descriptors := by
    intro p
    unfold Proc.descriptors
    rw [isZombie_wokenState]
  cases hl : s.loaded with
  | none =>
    rw [descriptors_of_not_loaded (s := s.wake ready) hl, descriptors_of_not_loaded hl]
    exact held_perm (heldAt_mapVals hstate)
  | some pid => exact descriptors_perm hl hl rfl fun a _ => heldAt_mapVals hstate a

/-- What is saved is what was live. -/
theorem held_save (h : s.WellFormed) : held Proc.descriptors s.save.procs = s.descriptors := by
  unfold save
  cases hl : s.loaded with
  | none => rw [descriptors_of_not_loaded hl]
  | some pid =>
    obtain ⟨-, p, hp, hlive⟩ := h.loaded pid hl
    dsimp only
    rw [hp, descriptors_of_loaded hl]
    rw [held_insert]
    unfold Proc.descriptors
    rw [if_neg hlive]
    rfl

/-- What `save` does to the processes. -/
theorem lookup_save {pid : ℤ} {p : Proc} (hp : s.save.procs.lookup pid = some p) :
    ∃ p0, s.procs.lookup pid = some p0 ∧ p.state = p0.state ∧
      (p.kstate = p0.kstate ∨ p.kstate = s.kernel.procSnapshot) := by
  unfold save at hp
  split at hp
  · exact ⟨p, hp, rfl, .inl rfl⟩
  next l hl =>
  split at hp
  · exact ⟨p, hp, rfl, .inl rfl⟩
  next q hq =>
  obtain ⟨rfl, rfl⟩ | ⟨-, hp⟩ := lookup_insert_eq_some.1 hp
  · exact ⟨q, hq, rfl, .inr rfl⟩
  · exact ⟨p, hp, rfl, .inl rfl⟩

theorem save_shared :
    s.save.kernel = s.kernel ∧ s.save.vfs = s.vfs ∧ s.save.nextPid = s.nextPid := by
  unfold save
  split
  · exact ⟨rfl, rfl, rfl⟩
  · split <;> exact ⟨rfl, rfl, rfl⟩

/-- The switch to a process that lives. -/
theorem switch_spec (h : s.WellFormed) {idx : ℤ} {p : Proc} (hp : s.procs.lookup idx = some p)
    (hlive : ¬ p.state.isZombie) :
    (s.switch idx).WellFormed ∧ (s.switch idx).descriptors ~ s.descriptors ∧
      (s.switch idx).kernel.pipes = s.kernel.pipes ∧
      (s.switch idx).kernel.sockets = s.kernel.sockets ∧ (s.switch idx).vfs = s.vfs := by
  unfold switch
  split
  · next hl =>
    obtain ⟨hcur, -⟩ := h.loaded idx hl
    have hsame : ({ s with cur := idx } : Sched σ) = s := by rw [hcur]
    rw [hsame]
    exact ⟨h, .refl _, rfl, rfl, rfl⟩
  next hl =>
  dsimp only
  -- The process is another one than the loaded one, so that saving leaves it alone.
  have hsaved : s.save.procs.lookup idx = some p := by
    unfold save
    split
    · exact hp
    next l hl' =>
    split
    · exact hp
    have hne : idx ≠ l := fun heq => hl (heq ▸ hl')
    rw [lookup_insert_ne hne]
    exact hp
  rw [hsaved]
  refine ⟨⟨?_, ?_, ?_, ?_⟩, ?_, ?_, ?_, save_shared.2.1⟩
  · rintro pid ⟨⟩
    exact ⟨rfl, p, hsaved, hlive⟩
  · intro pid q hq
    obtain ⟨q0, hq0, -⟩ := lookup_save hq
    show pid < s.save.nextPid
    rw [save_shared.2.2]
    exact h.pids pid q0 hq0
  · exact h.kstates idx p hp
  · intro pid q hq
    obtain ⟨q0, hq0, -, hstate | hstate⟩ := lookup_save hq
    · rw [hstate]
      exact h.kstates pid q0 hq0
    · rw [hstate]
      exact h.fds
  · rw [descriptors_of_loaded rfl, ← held_save h]
    have hall : held Proc.descriptors s.save.procs ~ _ := held_perm_append (a := idx)
    unfold heldAt at hall
    rw [hsaved] at hall
    simp only [elim_some, Proc.descriptors, if_neg hlive] at hall
    exact hall.symm
  · show s.save.kernel.pipes = _
    rw [save_shared.1]
  · show s.save.kernel.sockets = _
    rw [save_shared.1]

/-- A round of the loop changes nothing of what is open. -/
theorem round_spec (h : s.WellFormed) (ready : Block → Bool) :
    (s.round ready).WellFormed ∧ (s.round ready).descriptors ~ s.descriptors ∧
      (s.round ready).kernel.pipes = s.kernel.pipes ∧
      (s.round ready).kernel.sockets = s.kernel.sockets ∧ (s.round ready).vfs = s.vfs := by
  have hwake := wellFormed_wake h ready
  unfold round
  dsimp only
  split
  · exact ⟨hwake, descriptors_wake ready, rfl, rfl, rfl⟩
  next idx hpick =>
  have hrunnable := List.find?_some hpick
  cases hp : (s.wake ready).procs.lookup idx with
  | none =>
    rw [hp] at hrunnable
    cases hrunnable
  | some p =>
    rw [hp, any_some, decide_eq_true_eq] at hrunnable
    obtain ⟨hwf, hperm, hpipes, hsockets, hvfs⟩ := switch_spec hwake hp (by rw [hrunnable]; decide)
    exact ⟨hwf, hperm.trans (descriptors_wake ready), hpipes, hsockets, hvfs⟩

/-! ### Processes -/

theorem park_shared (b : Block) : (s.park b).kernel = s.kernel ∧ (s.park b).vfs = s.vfs := by
  unfold park setCur
  split
  · exact ⟨rfl, rfl⟩
  · exact ⟨rfl, rfl⟩

section Running

variable (h : s.WellFormed) (hl : s.loaded = some s.cur)

include h hl

/-- The process that runs. -/
theorem exists_running : ∃ p, s.procs.lookup s.cur = some p ∧ ¬ p.state.isZombie :=
  (h.loaded s.cur hl).2

/-- A process that parks keeps its descriptors. -/
theorem park_spec (b : Block) : (s.park b).WellFormed ∧ (s.park b).descriptors = s.descriptors := by
  obtain ⟨p, hp, hlive⟩ := exists_running h hl
  unfold park setCur
  rw [hp]
  refine ⟨⟨?_, ?_, h.fds, ?_⟩, ?_⟩
  · intro pid hpid
    cases hpid
  · exact forall_insert h.pids (h.pids s.cur p hp)
  · exact forall_insert h.kstates h.fds
  · rw [descriptors_of_not_loaded rfl, descriptors_of_loaded hl]
    exact held_insert

/-- A process that exits takes its descriptors away. -/
theorem exitProc_spec (code : ℤ) :
    (s.exitProc code).WellFormed ∧ (s.exitProc code).descriptors ~ s.others ∧
      (s.exitProc code).kernel = s.kernel ∧ (s.exitProc code).vfs = s.vfs := by
  obtain ⟨p, hp, hlive⟩ := exists_running h hl
  unfold exitProc
  rw [hp]
  dsimp only
  generalize hz : s.procs.insert s.cur { p with state := .zombie (waitStatus code) } = procs1
  have hpids1 : ∀ pid q, procs1.lookup pid = some q → pid < s.nextPid := by
    rw [← hz]
    exact forall_insert h.pids (h.pids s.cur p hp)
  have hkstates1 : ∀ pid q, procs1.lookup pid = some q → FdsBelow q.kstate := by
    rw [← hz]
    exact forall_insert h.kstates (h.kstates s.cur p hp)
  have hheld1 : held Proc.descriptors procs1 = s.others := by
    unfold others
    rw [← hz, hl]
    exact held_insert
  refine ⟨⟨?_, ?_, h.fds, ?_⟩, ?_, rfl, rfl⟩
  · intro pid hpid
    cases hpid
  · split
    · exact hpids1
    · next parent hparent => exact forall_insert hpids1 (hpids1 p.ppid parent hparent)
  · split
    · exact hkstates1
    · next parent hparent => exact forall_insert hkstates1 (hkstates1 p.ppid parent hparent)
  rw [descriptors_of_not_loaded rfl, ← hheld1]
  split
  · exact .refl _
  next parent hparent =>
  refine held_perm fun a => ?_
  by_cases heq : a = p.ppid
  · rw [heq, heldAt_insert]
    unfold heldAt Proc.descriptors
    rw [hparent, isZombie_parentState]
    rfl
  · exact heldAt_insert_ne heq

/-- A change of the process that runs which keeps its kernel state and lets it live. -/
theorem setCur_spec {f : Proc → Proc} (hstate : ∀ p, (f p).state = p.state)
    (hkstate : ∀ p, (f p).kstate = p.kstate) :
    (s.setCur f).WellFormed ∧ (s.setCur f).descriptors ~ s.descriptors := by
  obtain ⟨p, hp, hlive⟩ := exists_running h hl
  unfold setCur
  rw [hp]
  refine ⟨⟨?_, ?_, h.fds, ?_⟩, ?_⟩
  · intro pid hpid
    obtain ⟨hcur, -⟩ := h.loaded pid hpid
    refine ⟨hcur, f p, ?_, by rwa [hstate]⟩
    rw [hcur]
    exact lookup_insert _
  · exact forall_insert h.pids (h.pids s.cur p hp)
  · refine forall_insert h.kstates ?_
    rw [hkstate]
    exact h.kstates s.cur p hp
  · exact descriptors_perm hl hl rfl fun a ha => heldAt_insert_ne ha

/-- To reap a process that has exited takes no descriptor away. -/
theorem doWait4_spec (target : ℤ) (wnohang : Bool) : (s.doWait4 target wnohang).WellFormed ∧
      (s.doWait4 target wnohang).descriptors ~ s.descriptors ∧
      (s.doWait4 target wnohang).kernel = s.kernel ∧
      (s.doWait4 target wnohang).vfs = s.vfs := by
  obtain ⟨p, hp, hlive⟩ := exists_running h hl
  unfold doWait4
  rw [hp]
  dsimp only
  split
  · next pid hzombie =>
    obtain ⟨z, hz, hdead⟩ : ∃ z, s.procs.lookup pid = some z ∧ z.state.isZombie := by
      have hfound := List.find?_some hzombie
      rw [decide_eq_true_eq] at hfound
      cases hz : s.procs.lookup pid with
      | none =>
        rw [hz] at hfound
        cases hfound.2
      | some z =>
        rw [hz] at hfound
        exact ⟨z, rfl, hfound.2⟩
    have hne : s.cur ≠ pid := by
      rintro rfl
      rw [hp] at hz
      cases hz
      exact hlive hdead
    have hreaped : ({ s with procs := s.procs.erase pid
                             order := s.order.filter (· ≠ pid) } : Sched σ).WellFormed := by
      refine ⟨?_, ?_, h.fds, ?_⟩
      · intro pid' hpid'
        obtain ⟨hcur, q, hq, hlive'⟩ := h.loaded pid' hpid'
        refine ⟨hcur, q, ?_, hlive'⟩
        rwa [lookup_erase_ne (hcur ▸ hne)]
      · exact forall_erase h.pids
      · exact forall_erase h.kstates
    obtain ⟨hwf, hperm⟩ := setCur_spec hreaped hl
      (f := fun p => { p with children := p.children.filter (· ≠ pid) }) (fun _ => rfl) fun _ => rfl
    refine ⟨hwf, hperm.trans ?_, ?_, ?_⟩
    · refine descriptors_perm hl hl rfl fun a _ => ?_
      by_cases hpid : a = pid
      · rw [hpid, heldAt_erase]
        unfold heldAt Proc.descriptors
        rw [hz, elim_some, if_pos hdead]
      · exact heldAt_erase_ne hpid
    · unfold setCur
      split <;> rfl
    · unfold setCur
      split <;> rfl
  · split
    · obtain ⟨hwf, hsame⟩ := park_spec h hl .wait4
      exact ⟨hwf, hsame ▸ .refl _, park_shared .wait4⟩
    · exact ⟨h, .refl _, rfl, rfl⟩

theorem takeSlot_spec {slot : ℕ} {s1 : Sched σ} (hslot : s.takeSlot = some (slot, s1)) :
    s1.WellFormed ∧ s1.loaded = some s1.cur ∧ s1.nextPid = s.nextPid ∧ s1.kernel = s.kernel ∧
      s1.vfs = s.vfs ∧ s1.descriptors = s.descriptors := by
  unfold takeSlot at hslot
  split at hslot
  · cases hslot
    exact ⟨⟨h.loaded, h.pids, h.fds, h.kstates⟩, hl, rfl, rfl, rfl, rfl⟩
  split at hslot
  · cases hslot
    exact ⟨⟨h.loaded, h.pids, h.fds, h.kstates⟩, hl, rfl, rfl, rfl, rfl⟩
  · cases hslot

/-- A new process holds the descriptors of the one that runs once more. -/
theorem addChild_spec (slot : ℕ) (hpid : s.nextPid < 2 ^ 31 - 1) : (s.addChild slot).WellFormed ∧
      (s.addChild slot).descriptors ~ vals s.kernel.fds ++ s.descriptors := by
  have hnew : s.procs.lookup s.nextPid = none := by
    cases hq : s.procs.lookup s.nextPid with
    | none => rfl
    | some q => exact absurd (h.pids _ q hq) (lt_irrefl _)
  obtain ⟨p, hp, hlive⟩ := exists_running h hl
  have hne : s.cur ≠ s.nextPid := by
    intro heq
    rw [← heq, hp] at hnew
    cases hnew
  have hsucc : nextI32 s.nextPid = s.nextPid + 1 := by
    unfold nextI32
    rw [if_neg (by omega)]
  have hstate : s.kernel.forkDupPipes.toProcState = s.kernel.toProcState := toProcState_forkDupPipes
  refine ⟨⟨?_, ?_, ?_, ?_⟩, ?_⟩
  · intro pid hpid'
    obtain ⟨hcur, q, hq, hlive'⟩ := h.loaded pid hpid'
    refine ⟨hcur, q, ?_, hlive'⟩
    show (s.procs.insert s.nextPid _).lookup pid = some q
    rw [lookup_insert_ne (hcur ▸ hne), hq]
  · refine forall_insert (fun pid q hq => ?_) ?_
    · show pid < nextI32 s.nextPid
      rw [hsucc]
      exact (h.pids pid q hq).trans (lt_add_one _)
    show s.nextPid < nextI32 s.nextPid
    rw [hsucc]
    exact lt_add_one _
  · show FdsBelow s.kernel.forkDupPipes.toProcState
    rw [hstate]
    exact h.fds
  · exact forall_insert h.kstates h.fds
  · have hfds : s.kernel.forkDupPipes.fds = s.kernel.fds := congrArg ProcState.fds hstate
    rw [descriptors_of_loaded (s := s.addChild slot) hl, descriptors_of_loaded hl]
    show vals s.kernel.forkDupPipes.fds ++ _ ~ _
    rw [hfds]
    refine List.Perm.append_left _ ?_
    -- The child is a new process beside the others.
    have hchild : held Proc.descriptors ((s.addChild slot).procs.erase s.cur) ~
        held Proc.descriptors ((s.procs.erase s.cur).insert s.nextPid
          ⟨s.cur, .runnable, slot, s.kernel.procSnapshot, []⟩) := by
      refine held_perm fun a => ?_
      by_cases ha : a = s.cur
      · rw [ha, heldAt_erase, heldAt_insert_ne hne, heldAt_erase]
      rw [heldAt_erase_ne ha]
      by_cases ha' : a = s.nextPid
      · rw [ha', heldAt_insert]
        exact heldAt_insert
      · rw [heldAt_insert_ne ha', heldAt_erase_ne ha]
        exact heldAt_insert_ne ha'
    refine hchild.trans ?_
    rw [held_insert]
    refine List.Perm.append_left _ (held_perm fun a => ?_)
    by_cases ha : a = s.nextPid
    · rw [ha, heldAt_erase, heldAt_erase_ne hne.symm]
      unfold heldAt
      rw [hnew]
      rfl
    · rw [heldAt_erase_ne ha]

/-- A child gets a copy of the descriptors, unless there is no slot for it. -/
theorem doFork_spec (hpid : s.nextPid < 2 ^ 31 - 1) :
    s.doFork.WellFormed ∧ s.doFork.vfs = s.vfs ∧
      ((s.doFork.kernel = s.kernel ∧ s.doFork.descriptors = s.descriptors) ∨
        (s.doFork.kernel = s.kernel.forkDupPipes ∧
          s.doFork.descriptors ~ vals s.kernel.fds ++ s.descriptors)) := by
  unfold doFork
  cases hslot : s.takeSlot with
  | none => exact ⟨h, rfl, .inl ⟨rfl, rfl⟩⟩
  | some r =>
    obtain ⟨slot, s1⟩ := r
    obtain ⟨h1, hl1, hnext, hkernel, hvfs, hdesc⟩ := takeSlot_spec h hl hslot
    obtain ⟨h2, hperm2⟩ := setCur_spec h1 hl1
      (f := fun p => { p with children := p.children ++ [s1.nextPid] }) (fun _ => rfl) fun _ => rfl
    have hsame : ∀ f, (s1.setCur f).loaded = s1.loaded ∧ (s1.setCur f).cur = s1.cur ∧
        (s1.setCur f).nextPid = s1.nextPid ∧ (s1.setCur f).kernel = s1.kernel ∧
        (s1.setCur f).vfs = s1.vfs := by
      intro f
      unfold setCur
      split <;> exact ⟨rfl, rfl, rfl, rfl, rfl⟩
    dsimp only
    generalize hs2 : s1.setCur (fun p => { p with children := p.children ++ [s1.nextPid] }) = s2
      at h2 hperm2 ⊢
    obtain ⟨hl2, hcur2, hnext2, hkernel2, hvfs2⟩ := hs2 ▸ hsame _
    obtain ⟨h3, hperm3⟩ := addChild_spec h2 (by rw [hl2, hl1, hcur2]) slot (by omega)
    refine ⟨h3, hvfs2.trans hvfs, .inr ⟨?_, ?_⟩⟩
    · show s2.kernel.forkDupPipes = _
      rw [hkernel2, hkernel]
    rw [hkernel2, hkernel] at hperm3
    refine hperm3.trans (List.Perm.append_left _ ?_)
    rw [← hdesc]
    exact hperm2

end Running

end Sched

end Univdreams.Emulator
