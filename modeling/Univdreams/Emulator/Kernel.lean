import Univdreams.Emulator.Mounts

/-!
# The Linux kernel: descriptors and paths

`LinuxKernel` of `src/emulator/linux/mod.rs`: the state of a process (`ProcState`), what all
processes share, and the system calls on descriptors and on paths. A path argument is a pointer into
the memory of the guest; here it is what `read_cstr` returns for it, with `none` for a bad pointer.

Descriptors are `i32`; the counter for the next one wraps around, where a build with overflow checks
panics.
-/

namespace Univdreams.Emulator

/-! ## State -/

/-- `Fd`. -/
inductive Fd where
  | stdin
  | stdout
  | stderr
  | vfs (h : ℕ) (path : Text)
  | dir (path : Text) (pos : ℕ)
  | pipeRead (i : ℕ)
  | pipeWrite (i : ℕ)
  | socket (i : ℕ)
  deriving DecidableEq, Repr

/-- `FileMapping`. -/
structure FileMapping where
  base : ℕ
  len : ℕ
  path : Text
  offset : ℕ
  file_len : ℕ
  writeback : Bool
  deriving DecidableEq, Repr

/-- `SigAction`. -/
structure SigAction where
  handler : ℕ
  flags : ℕ
  restorer : ℕ
  mask : ℕ
  deriving DecidableEq, Repr

/-- `ProcState`: the state of one process. -/
structure ProcState where
  fds : AList fun _ : ℤ => Fd
  nextFd : ℤ
  brk : ℕ
  brkMapped : ℕ
  mmapTop : ℕ
  fileMaps : List FileMapping
  cwd : Text
  umask : ℕ
  sigactions : AList fun _ : ℤ => SigAction
  sigMask : ℕ
  pendingSignal : Option ℤ
  currentTid : ℤ

/-- `Pipe`. -/
structure Pipe where
  buf : Bytes
  readers : ℤ
  writers : ℤ
  deriving DecidableEq, Repr

/-- `SocketState`, without the host's socket. -/
inductive SocketState where
  | pending (ty : ℕ)
  | tcp
  | udp
  | closed
  deriving DecidableEq, Repr

/-- `LinuxKernel`: the state of the process that is running, and what the processes share. -/
structure Kernel extends ProcState where
  pipes : List Pipe
  sockets : List SocketState
  netEnabled : Bool

namespace Kernel

variable (k : Kernel)

/-- `proc_snapshot`. -/
def procSnapshot : ProcState := k.toProcState

/-- `proc_restore`. -/
def procRestore (s : ProcState) : Kernel := { k with toProcState := s }

/-- `MMAP_BASE`. -/
def mmapBase : ℕ := 0x40000000

/-- The descriptors of the standard streams. -/
def stdFds : AList fun _ : ℤ => Fd := [⟨0, .stdin⟩, ⟨1, .stdout⟩, ⟨2, .stderr⟩].toAList

/-- `init`: the state of the first process. -/
def init (brk : ℕ) : Kernel :=
  { k with
    brk, brkMapped := brk, mmapTop := mmapBase, fds := stdFds, nextFd := 3, currentTid := 1
    cwd := ['/'], umask := 0o022, pipes := [], sockets := [] }

/-- A kernel with no descriptors but the standard ones, at the root directory. -/
def fresh : Kernel :=
  { fds := stdFds, nextFd := 3, brk := 0, brkMapped := 0, mmapTop := mmapBase, fileMaps := []
    cwd := ['/'], umask := 0o022, sigactions := ∅, sigMask := 0, pendingSignal := none
    currentTid := 1, pipes := [], sockets := [], netEnabled := false }

/-! ## Errors and flags -/

def eNOENT : ℤ := -2
def eBADF : ℤ := -9
def eACCES : ℤ := -13
def eFAULT : ℤ := -14
def eNOTDIR : ℤ := -20
def eISDIR : ℤ := -21
def eINVAL : ℤ := -22

/-- `AT_FDCWD`. -/
def atFdcwd : ℤ := -100

/-- Whether a flag is set. -/
def hasFlag (flags flag : ℕ) : Bool := flags &&& flag ≠ 0

/-- `O_CREAT`. -/
def oCREAT : ℕ := 0x40

/-- `O_DIRECTORY`. -/
def oDIRECTORY : ℕ := 0x10000

/-- `O_NOFOLLOW`. -/
def oNOFOLLOW : ℕ := 0x20000

/-! ## Paths -/

/-- The directory that a relative path starts from. -/
def baseDir (dirfd : ℤ) : Option Text :=
  if dirfd = atFdcwd then some k.cwd
  else match k.fds.lookup dirfd with
    | some (.dir path _) | some (.vfs _ path) => some path
    | _ => none

/-- `resolve_at`. -/
def resolveAt (dirfd : ℤ) (path : Option Text) : Option Text := do
  let p ← path
  if p.head? = some '/' then return canonicalize ['/'] p
  else
    let base ← k.baseDir dirfd
    return canonicalize base p

/-! ## Descriptors -/

/-- The next `i32`. -/
def nextI32 (n : ℤ) : ℤ := if n = 2 ^ 31 - 1 then -2 ^ 31 else n + 1

/-- `install_fd`. -/
def installFd (value : Fd) : ℤ × Kernel :=
  (k.nextFd, { k with fds := k.fds.insert k.nextFd value, nextFd := nextI32 k.nextFd })

/-- The number of descriptors of an end of a pipe changed. The indices come from `sys_pipe`, and no
pipe is ever removed. The counts are `i32`, far above the descriptors that fit into memory. -/
def pipeRef (fd : Fd) (delta : ℤ) : Kernel :=
  match fd with
  | .pipeRead i =>
    { k with pipes := k.pipes.modify i fun p => { p with readers := p.readers + delta } }
  | .pipeWrite i =>
    { k with pipes := k.pipes.modify i fun p => { p with writers := p.writers + delta } }
  | _ => k

theorem toProcState_pipeRef (fd : Fd) (delta : ℤ) :
    (k.pipeRef fd delta).toProcState = k.toProcState := by
  unfold pipeRef
  split <;> rfl

theorem sockets_pipeRef (fd : Fd) (delta : ℤ) : (k.pipeRef fd delta).sockets = k.sockets := by
  unfold pipeRef
  split <;> rfl

/-- `sys_dup`. -/
def sysDup (oldfd : ℤ) : ℤ × Kernel :=
  match k.fds.lookup oldfd with
  | some v =>
    let (fd, k) := k.installFd v
    (fd, k.pipeRef v 1)
  | none => (eBADF, k)

/-- `sys_fcntl`: two commands duplicate, the others change no descriptor. `F_GETFL` for a socket is
left out. -/
def sysFcntl (fd : ℤ) (cmd : ℕ) : ℤ × Kernel :=
  match k.fds.lookup fd with
  | none => (eBADF, k)
  | some _ => if cmd = 0 ∨ cmd = 1030 then k.sysDup fd else (0, k)

/-- `sys_pipe`, where `writable` says that the memory for the two descriptors is. -/
def sysPipe (writable : Bool) : ℤ × Kernel :=
  let i := k.pipes.length
  let k := { k with pipes := k.pipes ++ [Pipe.mk [] 1 1] }
  let (_, k) := k.installFd (.pipeRead i)
  let (_, k) := k.installFd (.pipeWrite i)
  (if writable then 0 else eFAULT, k)

/-- `sys_socket`. -/
def sysSocket (domain : ℤ) (ty : ℕ) : ℤ × Kernel :=
  if ¬ k.netEnabled then (eACCES, k)
  else if domain ≠ 2 ∧ domain ≠ 10 then (-97, k)
  else
    let i := k.sockets.length
    { k with sockets := k.sockets ++ [SocketState.pending (ty % 256)] }.installFd (.socket i)

/-- `fork_dup_pipes`. -/
def forkDupPipes : Kernel := (k.fds.entries.map (·.2)).foldl (fun k v => k.pipeRef v 1) k

theorem foldl_pipeRef (vs : List Fd) (delta : ℤ) (k : Kernel) :
    (vs.foldl (fun k v => k.pipeRef v delta) k).toProcState = k.toProcState ∧
      (vs.foldl (fun k v => k.pipeRef v delta) k).sockets = k.sockets := by
  induction vs generalizing k with
  | nil => exact ⟨rfl, rfl⟩
  | cons v vs ih =>
    obtain ⟨hstate, hsockets⟩ := ih (k.pipeRef v delta)
    exact ⟨hstate.trans (toProcState_pipeRef k v delta), hsockets.trans (sockets_pipeRef k v delta)⟩

theorem toProcState_forkDupPipes {k : Kernel} : k.forkDupPipes.toProcState = k.toProcState :=
  (foldl_pipeRef _ 1 k).1

theorem sockets_forkDupPipes {k : Kernel} : k.forkDupPipes.sockets = k.sockets :=
  (foldl_pipeRef _ 1 k).2

/-- `pipe_readable`. -/
def pipeReadable (i : ℕ) : Bool :=
  match k.pipes[i]? with
  | some p => p.buf ≠ [] || p.writers ≤ 0
  | none => false

/-- `sys_fchdir`. -/
def sysFchdir (fd : ℤ) : ℤ × Kernel :=
  match k.fds.lookup fd with
  | some (.dir path _) => (0, { k with cwd := path })
  | some _ => (eNOTDIR, k)
  | none => (eBADF, k)

/-- The access that the flags ask for. -/
def accessOf (flags : ℕ) : FileAccess :=
  if flags &&& 3 = 0 then .read else if flags &&& 3 = 1 then .write else .readWrite

section Calls

variable {σ : Type} (lower : Char → Text) (B : Backend σ)
variable (k : Kernel) (p : Text)

/-- The path that `openat` opens: links are followed unless `O_NOFOLLOW` is given. -/
def openPath (flags : ℕ) (t : MountTable σ) : Text × MountTable σ :=
  if hasFlag flags oNOFOLLOW then (p, t) else t.resolveSymlinks lower B p

/-- Whether `openat` opens a directory. -/
def opensDir (flags : ℕ) (t : MountTable σ) : Bool × MountTable σ :=
  if hasFlag flags oDIRECTORY then (true, t)
  else
    let (attrs, t) := t.statPath lower B p
    (attrs.map Attrs.kind = some .dir, t)

/-- `openat` for a file, from `O_CREAT` on. -/
def openFile (flags : ℕ) (t : MountTable σ) : ℤ × Kernel × MountTable σ :=
  let t := if hasFlag flags oCREAT then t.writePath lower p [] else t
  let (handle, t) := t.open lower B p (accessOf flags)
  match handle with
  | some h =>
    let (fd, k) := k.installFd (.vfs h p)
    (fd, k, t)
  | none => (eNOENT, k, t)

variable {lower B} in
/-- What `openFile` does to the files is what `O_CREAT` and `open` do. -/
theorem openFile_table (flags : ℕ) {t : MountTable σ} :
    (openFile lower B k p flags t).2.2 =
      ((if hasFlag flags oCREAT then t.writePath lower p [] else t).open lower B p
        (accessOf flags)).2 := by
  unfold openFile
  dsimp only
  split <;> rfl

/-- `sys_openat`. -/
def sysOpenat (dirfd : ℤ) (path : Option Text) (flags : ℕ) (t : MountTable σ) :
    ℤ × Kernel × MountTable σ :=
  match k.resolveAt dirfd path with
  | none => (eBADF, k, t)
  | some p =>
    let (p, t) := openPath lower B p flags t
    let (isDir, t) := opensDir lower B p flags t
    if isDir then
      let (fd, k) := k.installFd (.dir p 0)
      (fd, k, t)
    else openFile lower B k p flags t

/-- The result of a call that returns nothing but success. -/
def statusOf {α : Type} (error : ℤ) : IoResult α → ℤ
  | .ok _ => 0
  | .error _ => error

/-- The copy that `renameat` and `linkat` fall back on: the status, which is 0 when the copy was
made, and the table. The outer `none` says that the rounds do not suffice. -/
def copyFile (rounds : ℕ) (old new : Text) (t : MountTable σ) : Option (ℤ × MountTable σ) := do
  let (data, t) ← t.readFile lower B rounds old
  match data with
  | none => return (eNOENT, t)
  | some data =>
    let (_, t) := t.truncatePath lower B new 0
    let (handle, t) := t.open lower B new .write
    match handle with
    | none => return (eACCES, t)
    | some h =>
      let (_, t) := t.writeHandle B h data
      let (_, t) := t.close h
      return (0, t)

/-- `sys_renameat`. -/
def sysRenameat (rounds : ℕ) (olddirfd : ℤ) (oldp : Option Text) (newdirfd : ℤ)
    (newp : Option Text) (t : MountTable σ) : Option (ℤ × MountTable σ) :=
  match k.resolveAt olddirfd oldp, k.resolveAt newdirfd newp with
  | some old, some new =>
    if old = new then some (0, t)
    else
      let (renamed, t) := t.renamePath B old new
      match renamed with
      | .ok () => some (0, t)
      | .error _ => do
        let (status, t) ← copyFile lower B rounds old new t
        if status = 0 then
          let (_, t) := t.unlinkPath lower B old
          return (0, t)
        else return (status, t)
  | _, _ => some (eBADF, t)

/-- `sys_linkat`. -/
def sysLinkat (rounds : ℕ) (olddirfd : ℤ) (oldp : Option Text) (newdirfd : ℤ) (newp : Option Text)
    (t : MountTable σ) : Option (ℤ × MountTable σ) :=
  match k.resolveAt olddirfd oldp, k.resolveAt newdirfd newp with
  | some old, some new =>
    let (linked, t) := t.hardlinkPath B old new
    match linked with
    | .ok () => some (0, t)
    | .error _ => copyFile lower B rounds old new t
  | _, _ => some (eBADF, t)

/-- The file that `sys_stat` and `sys_statx` report on a path, without the record for the guest. -/
def sysStat (dirfd : ℤ) (path : Option Text) (nofollow : Bool) (t : MountTable σ) :
    IoResult (Option Attrs) × MountTable σ :=
  match k.resolveAt dirfd path with
  | none => (.error .invalidInput, t)
  | some p =>
    let (target, t) := if nofollow then (p, t) else t.resolveSymlinks lower B p
    let (attrs, t) := t.statPath lower B target
    (.ok attrs, t)

/-- `sys_faccessat`. -/
def sysFaccessat (dirfd : ℤ) (path : Option Text) (t : MountTable σ) : ℤ × MountTable σ :=
  match k.resolveAt dirfd path with
  | none => (eBADF, t)
  | some p =>
    let (attrs, t) := t.statPath lower B p
    (if attrs.isSome then 0 else eNOENT, t)

/-- `sys_mkdirat`. -/
def sysMkdirat (dirfd : ℤ) (path : Option Text) (t : MountTable σ) : ℤ × MountTable σ :=
  match k.resolveAt dirfd path with
  | none => (eBADF, t)
  | some p =>
    let (r, t) := t.mkdirPath B p 0o755
    (statusOf eINVAL r, t)

/-- `sys_unlinkat`. -/
def sysUnlinkat (dirfd : ℤ) (path : Option Text) (isRmdir : Bool) (t : MountTable σ) :
    ℤ × MountTable σ :=
  match k.resolveAt dirfd path with
  | none => (eBADF, t)
  | some p =>
    let (r, t) := if isRmdir then t.rmdirPath B p else t.unlinkPath lower B p
    (statusOf eNOENT r, t)

/-- `sys_symlinkat`. -/
def sysSymlinkat (target : Option Text) (dirfd : ℤ) (linkpath : Option Text) (t : MountTable σ) :
    ℤ × MountTable σ :=
  match target, k.resolveAt dirfd linkpath with
  | some target, some l =>
    let (r, t) := t.symlinkPath B target l
    (statusOf eINVAL r, t)
  | _, _ => (eFAULT, t)

/-- `sys_truncate`, which takes the path as it is. -/
def sysTruncate (path : Option Text) (len : ℕ) (t : MountTable σ) : ℤ × MountTable σ :=
  match path with
  | none => (eFAULT, t)
  | some p =>
    let (r, t) := t.truncatePath lower B p len
    (statusOf eNOENT r, t)

/-- `sys_readlinkat`, with the target and not its length. -/
def sysReadlinkat (dirfd : ℤ) (path : Option Text) (t : MountTable σ) :
    IoResult Text × MountTable σ :=
  match k.resolveAt dirfd path with
  | none => (.error .other, t)
  | some p => t.readlinkPath B p

/-- `sys_chdir`. -/
def sysChdir (path : Option Text) (t : MountTable σ) : ℤ × Kernel × MountTable σ :=
  match k.resolveAt atFdcwd path with
  | none => (eFAULT, k, t)
  | some p =>
    let (attrs, t) := t.statPath lower B p
    match attrs.map Attrs.kind with
    | some .dir => (0, { k with cwd := p }, t)
    | some _ => (eNOTDIR, k, t)
    | none => (eNOENT, k, t)

/-- `sys_read` for a process that can be parked, where `writable` says that the memory is, and
`received` is what the host's socket returns: the status, the pipe it waits for, and the state.
Standard input is empty. -/
def sysRead (fd : ℤ) (len : ℕ) (writable : Bool) (received : ℤ) (t : MountTable σ) :
    ℤ × Option ℕ × Kernel × MountTable σ :=
  match k.fds.lookup fd with
  | some .stdin => (0, none, k, t)
  | some (.vfs h _) =>
    let (bytes, t) := t.readHandle B h len
    (if writable then (bytes.getD []).length else eFAULT, none, k, t)
  | some (.pipeRead i) =>
    match k.pipes[i]? with
    | none => (0, none, k, t)
    | some p =>
      if p.buf = [] then (0, if 0 < p.writers then some i else none, k, t)
      else
        (if writable then (p.buf.take len).length else eFAULT, none,
          { k with pipes := k.pipes.set i { p with buf := p.buf.drop len } }, t)
  | some (.socket _) => (if 0 ≤ received ∧ ¬ writable then eFAULT else received, none, k, t)
  | some (.dir _ _) => (eISDIR, none, k, t)
  | _ => (eBADF, none, k, t)

/-- `sys_write`, where `sent` is what the host's socket returns. -/
def sysWrite (fd : ℤ) (data : Bytes) (sent : ℤ) (t : MountTable σ) : ℤ × Kernel × MountTable σ :=
  match k.fds.lookup fd with
  | some .stdout | some .stderr => (data.length, k, t)
  | some (.vfs h _) =>
    let (n, t) := t.writeHandle B h data
    (n.elim eBADF fun n => n, k, t)
  | some (.pipeWrite i) =>
    (data.length, { k with pipes := k.pipes.modify i fun p => { p with buf := p.buf ++ data } }, t)
  | some (.socket _) => (sent, k, t)
  | _ => (eBADF, k, t)

/-- `sys_lseek`. -/
def sysLseek (fd : ℤ) (off : ℤ) (whence : ℕ) (t : MountTable σ) : ℤ × MountTable σ :=
  match k.fds.lookup fd with
  | some (.vfs h _) =>
    let (pos, t) := t.seekHandle B h off (whence % 2 ^ 8)
    (pos.elim eINVAL fun pos => pos, t)
  | _ => (eINVAL, t)

/-- `sys_close`. -/
def sysClose (fd : ℤ) (t : MountTable σ) : ℤ × Kernel × MountTable σ :=
  let removed := { k with fds := k.fds.erase fd }
  match k.fds.lookup fd with
  | some (.vfs h _) => (0, removed, (t.close h).2)
  | some (.socket i) => (0, { removed with sockets := removed.sockets.set i .closed }, t)
  | some v => (0, removed.pipeRef v (-1), t)
  | none => (eBADF, k, t)

/-- What `sys_dup2` does with the descriptor that is overwritten: a socket stays open. -/
def dropFd (fd : ℤ) (t : MountTable σ) : Kernel × MountTable σ :=
  let removed := { k with fds := k.fds.erase fd }
  match k.fds.lookup fd with
  | some (.vfs h _) => (removed, (t.close h).2)
  | some v => (removed.pipeRef v (-1), t)
  | none => (removed, t)

theorem toProcState_dropFd (fd : ℤ) (t : MountTable σ) :
    (k.dropFd fd t).1.toProcState = { k.toProcState with fds := k.fds.erase fd } := by
  unfold dropFd
  split
  · rfl
  · exact toProcState_pipeRef _ _ _
  · rfl

/-- `sys_dup2`, and `dup3`. -/
def sysDup2 (oldfd newfd : ℤ) (t : MountTable σ) : ℤ × Kernel × MountTable σ :=
  match k.fds.lookup oldfd with
  | none => (eBADF, k, t)
  | some v =>
    if oldfd = newfd then (newfd, k, t)
    else
      let (k, t) := k.dropFd newfd t
      let k := { k with fds := k.fds.insert newfd v }.pipeRef v 1
      (newfd, { k with nextFd := if k.nextFd ≤ newfd then nextI32 newfd else k.nextFd }, t)

/-- The file that `sys_stat` reports on a descriptor, without the record for the guest; the inner
`none` is a descriptor without a path. -/
def sysFstat (fd : ℤ) (t : MountTable σ) : IoResult (Option (Option Attrs)) × MountTable σ :=
  match k.fds.lookup fd with
  | none => (.error .other, t)
  | some (.vfs _ path) | some (.dir path _) =>
    let (attrs, t) := t.statPath lower B path
    (.ok (some attrs), t)
  | some _ => (.ok none, t)

/-- `sys_ftruncate`. -/
def sysFtruncate (fd : ℤ) (len : ℕ) (t : MountTable σ) : ℤ × MountTable σ :=
  match k.fds.lookup fd with
  | some (.vfs _ path) =>
    let (r, t) := t.truncatePath lower B path len
    (statusOf eINVAL r, t)
  | some (.dir _ _) => (eISDIR, t)
  | _ => (eBADF, t)

/-- `sys_fallocate`. -/
def sysFallocate (fd : ℤ) (offset len : ℕ) (t : MountTable σ) : ℤ × MountTable σ :=
  match k.fds.lookup fd with
  | some (.vfs _ path) =>
    let want := min (offset + len) (2 ^ 64 - 1)
    let (attrs, t) := t.statPath lower B path
    if (attrs.map Attrs.size).getD 0 < want then (0, (t.truncatePath lower B path want).2)
      else (0, t)
  | some (.dir _ _) => (eISDIR, t)
  | _ => (eBADF, t)

/-- The loop of `sys_getdents64` from the cursor on, where `writable` says whether the memory for a
record is: the cursor and the bytes written. -/
def direntLoop (writable : ℕ → Bool) (count : ℕ) :
    List Text → (idx off : ℕ) → Option (ℕ × ℕ)
  | [], idx, off => some (idx, off)
  | name :: names, idx, off =>
    let reclen := (19 + (byteLength name + 1) + 7) / 8 * 8
    if count < off + reclen then some (idx, off)
    else if ¬ writable off then none
    else direntLoop writable count names (idx + 1) (off + reclen)

/-- `sys_getdents64`. -/
def sysGetdents64 (fd : ℤ) (count : ℕ) (writable : ℕ → Bool) (t : MountTable σ) :
    ℤ × Kernel × MountTable σ :=
  match k.fds.lookup fd with
  | some (.dir path start) =>
    let (entries, t) := t.readdirPath lower B path
    match entries with
    | .error _ => (eNOTDIR, k, t)
    | .ok entries =>
      let all := ['.'] :: ['.', '.'] :: entries.map Prod.fst
      match direntLoop writable count (all.drop start) start 0 with
      | none => (eFAULT, k, t)
      | some (idx, off) =>
        if off = 0 ∧ start < all.length then (eINVAL, k, t)
        else (off, { k with fds := k.fds.insert fd (.dir path idx) }, t)
  | _ => (eNOTDIR, k, t)

end Calls

end Kernel

end Univdreams.Emulator
