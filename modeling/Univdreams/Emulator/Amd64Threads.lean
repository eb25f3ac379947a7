import Mathlib.Tactic

/-!
# Guest threads of the amd64 emulator

The loop of `run_linux_amd64` in `src/emulator/runtime.rs`, which gives the threads of a process
their turns. Child processes run to their end inside the turn of their parent, so that the threads
of the loop are those of the main process.

The loop takes turns fairly (`turn_within`): the index where it starts to look is behind the last
thread that had a turn, and the distance of a thread from it shrinks in every turn, up to the
threads that are added at the end of the list. It treats `exit_group` like `exit` (`exit_ends_iff`).
-/

namespace Univdreams.Emulator.Amd64

open List

/-- `AmdThread`, without its registers. -/
structure AmdThread where
  tid : ℤ
  blocked_on : Option UInt32
  clear_child_tid : UInt32
  exited : Bool
  waiting : Option (ℤ × UInt32)
  deriving DecidableEq, Repr

/-- The thread can be picked. -/
def AmdThread.runnable (t : AmdThread) : Bool :=
  !t.exited && t.blocked_on.isNone && t.waiting.isNone

/-- `wake_futex`. -/
def wakeFutex (addr : UInt32) : ℕ → List AmdThread → List AmdThread
  | n + 1, t :: ts =>
    if t.blocked_on = some addr then { t with blocked_on := none } :: wakeFutex addr n ts
    else t :: wakeFutex addr (n + 1) ts
  | _, ts => ts

/-- The state of the loop. -/
structure Process where
  threads : List AmdThread
  cur : ℕ
  exit_code : Option ℤ
  deriving DecidableEq, Repr

/-- What a thread does in its turn. -/
inductive Instr where
  /-- An instruction, or another system call. What it does to the threads is left open. It may end
  the turn, and does when it sets the exit code. -/
  | other (change : ℕ → AmdThread → AmdThread) (exit_code : Option ℤ) (stops : Bool)
  /-- `clone` with `CLONE_THREAD`, which ends the turn. -/
  | clone (child : AmdThread)
  /-- `exit`, or `exit_group`. -/
  | exit (group : Bool) (code : ℤ)

namespace Process

variable (p : Process)

/-- The thread at an index can be picked. -/
def runnable (i : ℕ) : Bool := p.threads[i]?.any AmdThread.runnable

/-- The thread that gets the next turn. -/
def pick : Option ℕ :=
  ((List.range p.threads.length).find? fun off => p.runnable ((p.cur + off) % p.threads.length)).map
    fun off => (p.cur + off) % p.threads.length

/-- The head of the loop: the result of the run, or the thread that gets a turn. `spent` says that
the budget is used up. -/
def next (spent : Bool) : Except ℤ ℕ :=
  match p.exit_code with
  | some code => .error code
  | none => if spent then .error (-1) else p.pick.elim (.error 0) .ok

/-- `exit` and `exit_group` of a thread. -/
def exitThread (idx : ℕ) (code : ℤ) : Process :=
  match p.threads[idx]? with
  | none => p
  | some t =>
    let threads := p.threads.set idx { t with exited := true }
    let threads :=
      if t.clear_child_tid ≠ 0 then wakeFutex t.clear_child_tid (2 ^ 31 - 1) threads else threads
    let exit_code := if t.tid = 1 then some code else p.exit_code
    { p with
      threads
      exit_code := if threads.all AmdThread.exited then exit_code.or (some 0) else exit_code }

/-- The instructions of a turn, up to the one that ends it. -/
def exec (idx : ℕ) : List Instr → Process → Process
  | [], p => p
  | .other change code stops :: is, p =>
    let p := { p with threads := p.threads.mapIdx change, exit_code := p.exit_code.or code }
    if stops || code.isSome then p else exec idx is p
  | .clone child :: _, p => { p with threads := p.threads ++ [child] }
  | .exit _ code :: _, p => p.exitThread idx code

/-- A turn of the thread at an index. -/
def turn (idx : ℕ) (is : List Instr) : Process :=
  exec idx is { p with cur := (idx + 1) % p.threads.length }

/-- The main thread alone. -/
def start : Process := ⟨[⟨1, none, 0, false, none⟩], 0, none⟩

/-- States of a run. -/
inductive Reachable : Process → Prop
  | start : Reachable start
  | turn {p : Process} {idx : ℕ} (h : Reachable p) (hnext : p.next false = .ok idx)
    (is : List Instr) : Reachable (p.turn idx is)

/-- From the first state to the second, `k` turns go to others, and before each the thread at `i`
can be picked. -/
inductive Waits (i : ℕ) : Process → Process → ℕ → Prop
  | refl (p : Process) : Waits i p p 0
  | turn {p q : Process} {idx k : ℕ} (hrun : p.runnable i = true) (hnext : p.next false = .ok idx)
    (hne : idx ≠ i) (is : List Instr) (h : Waits i (p.turn idx is) q k) : Waits i p q (k + 1)

/-! ## Turns -/

variable {p} {q : Process} {i idx k : ℕ}

@[simp] theorem length_wakeFutex (addr : UInt32) (n : ℕ) (ts : List AmdThread) :
    (wakeFutex addr n ts).length = ts.length := by
  fun_induction wakeFutex <;> simp_all

/-- The instructions of a turn leave the index alone, and add at most one thread. -/
theorem exec_spec (idx : ℕ) (is : List Instr) (p : Process) : (exec idx is p).cur = p.cur ∧
    p.threads.length ≤ (exec idx is p).threads.length ∧
    (exec idx is p).threads.length ≤ p.threads.length + 1 := by
  induction is generalizing p with
  | nil => simp [exec]
  | cons instr is ih =>
    cases instr with
    | other change code stops =>
      unfold exec
      split
      · simp
      · simpa using
          ih { p with threads := p.threads.mapIdx change, exit_code := p.exit_code.or code }
    | clone child => simp [exec]
    | exit group code =>
      unfold exec exitThread
      split
      · simp
      · dsimp only
        split_ifs <;> simp

theorem mod_of_lt_two_mul {a n : ℕ} (h : a < 2 * n) : a % n = if a < n then a else a - n := by
  split_ifs with ha
  · exact Nat.mod_eq_of_lt ha
  · rw [Nat.mod_eq_sub_mod (by omega), Nat.mod_eq_of_lt (by omega)]

/-- How far the index `i` is from the index `cur`, going round among `n`. -/
def distance (n cur i : ℕ) : ℕ := if cur ≤ i then i - cur else i + n - cur

/-- Behind an index met before `i` the distance is less, and it grows by one at most when the round
does. -/
theorem distance_next {n n' cur off i : ℕ} (hi : i < n) (hcur : cur < n)
    (hoff : off < distance n cur i) (hn : n ≤ n') (hn' : n' ≤ n + 1) :
    distance n' (((cur + off) % n + 1) % n) i + 1 + n ≤ distance n cur i + n' := by
  unfold distance at *
  have hidx := mod_of_lt_two_mul (show cur + off < 2 * n by split_ifs at hoff <;> omega)
  have hlt : (cur + off) % n < n := Nat.mod_lt _ (Nat.zero_lt_of_lt hi)
  have hnew := mod_of_lt_two_mul (show (cur + off) % n + 1 < 2 * n by omega)
  split_ifs at * <;> omega

/-- The thread at `i` is met at its distance. -/
theorem add_distance_mod {n cur : ℕ} (hcur : cur < n) (hi : i < n) :
    (cur + distance n cur i) % n = i := by
  unfold distance
  rw [mod_of_lt_two_mul (by split_ifs <;> omega)]
  split_ifs <;> omega

theorem lt_of_runnable (h : p.runnable i = true) : i < p.threads.length := by
  by_contra hi
  rw [runnable, List.getElem?_eq_none (not_lt.1 hi)] at h
  cases h

/-- While a thread can be picked, the turn goes to it or to one that is met before it. -/
theorem next_of_runnable (hcur : p.cur < p.threads.length) (hrun : p.runnable i = true)
    (hcode : p.exit_code = none) : ∃ off ≤ distance p.threads.length p.cur i,
      p.next false = .ok ((p.cur + off) % p.threads.length) := by
  have hi := lt_of_runnable hrun
  have hlt : distance p.threads.length p.cur i < p.threads.length := by
    unfold distance
    split_ifs <;> omega
  have hat := add_distance_mod hcur hi
  obtain ⟨off, hoff⟩ : ∃ off, (List.range p.threads.length).find?
      (fun off => p.runnable ((p.cur + off) % p.threads.length)) = some off := by
    rw [← Option.isSome_iff_exists, List.find?_isSome]
    exact ⟨_, mem_range.2 hlt, by rwa [hat]⟩
  obtain ⟨-, -, hbefore⟩ := List.find?_range_eq_some.1 hoff
  refine ⟨off, not_lt.1 fun hgt => ?_, ?_⟩
  · have hfound := hbefore _ hgt
    rw [hat, hrun] at hfound
    cases hfound
  · rw [next, hcode, pick, hoff]
    rfl

theorem cur_turn (hcur : p.cur < p.threads.length) (is : List Instr) :
    (p.turn idx is).cur < (p.turn idx is).threads.length := by
  obtain ⟨hsame, hle, -⟩ := exec_spec idx is { p with cur := (idx + 1) % p.threads.length }
  rw [turn, hsame]
  exact (Nat.mod_lt _ (Nat.zero_lt_of_lt hcur)).trans_le hle

/-- The step lemma: in a turn of another thread the distance shrinks, up to a thread that is
added. -/
theorem distance_turn (hcur : p.cur < p.threads.length) (hrun : p.runnable i = true)
    (hnext : p.next false = .ok idx) (hne : idx ≠ i) (is : List Instr) :
    distance (p.turn idx is).threads.length (p.turn idx is).cur i + 1 + p.threads.length ≤
      distance p.threads.length p.cur i + (p.turn idx is).threads.length := by
  obtain ⟨hsame, hle, hle'⟩ := exec_spec idx is { p with cur := (idx + 1) % p.threads.length }
  have hcode : p.exit_code = none := by
    cases hcode : p.exit_code <;> simp_all [next]
  have hi := lt_of_runnable hrun
  obtain ⟨off, hoff, hok⟩ := next_of_runnable hcur hrun hcode
  obtain rfl : _ = idx := Except.ok.inj (hok.symm.trans hnext)
  rw [turn, hsame]
  refine distance_next hi hcur (lt_of_le_of_ne hoff ?_) hle hle'
  rintro rfl
  exact hne (add_distance_mod hcur hi)

/-- The run lemma. -/
theorem Waits.distance_le (h : Waits i p q k) (hcur : p.cur < p.threads.length) :
    q.cur < q.threads.length ∧
      k + p.threads.length ≤ distance p.threads.length p.cur i + q.threads.length := by
  induction h with
  | refl p => exact ⟨hcur, by omega⟩
  | turn hrun hnext hne is h ih =>
    have hstep := distance_turn hcur hrun hnext hne is
    obtain ⟨hcur', hrest⟩ := ih (cur_turn hcur is)
    exact ⟨hcur', by omega⟩

theorem Reachable.cur_lt (h : Reachable p) : p.cur < p.threads.length := by
  induction h with
  | start => decide
  | turn h hnext is ih => exact cur_turn ih is

/-- **Bounded waiting.** While a thread can be picked and others get the turns, fewer turns pass
than there were threads, together with those that were added meanwhile. As long as it can be picked
and the exit code is not set, there is a next turn. -/
theorem turn_within (p q : Process) (i k : ℕ) (hp : Reachable p) (hi : i < p.threads.length)
    (h : Waits i p q k) : k < p.threads.length + (q.threads.length - p.threads.length) ∧
      (q.runnable i = true → q.exit_code = none → ∃ idx, q.next false = .ok idx) := by
  have hcur := hp.cur_lt
  obtain ⟨hcur', hle⟩ := h.distance_le hcur
  constructor
  · unfold distance at hle
    split_ifs at hle <;> omega
  intro hrun hcode
  obtain ⟨off, -, hok⟩ := next_of_runnable hcur' hrun hcode
  exact ⟨_, hok⟩

/-- A second thread waits for one turn of the first. -/
theorem turn_within_two : ∃ p q, Reachable p ∧ Waits 1 p q 1 ∧
    1 < p.threads.length + (q.threads.length - p.threads.length) := by
  let p := start.turn 0 [.clone ⟨2, none, 0, false, none⟩]
  have hp : Reachable p := .turn .start rfl _
  have hwaits : Waits 1 p (p.turn 0 []) 1 := .turn rfl rfl (by decide) [] (.refl _)
  exact ⟨p, _, hp, hwaits, (turn_within p _ 1 1 hp (by decide) hwaits).1⟩

/-! ## Exits -/

/-- A thread behind the exit of one whose clear-child-tid word is at `addr`. -/
def released (addr : UInt32) (t : AmdThread) : AmdThread :=
  if addr ≠ 0 ∧ t.blocked_on = some addr then { t with blocked_on := none } else t

theorem wakeFutex_eq_map {addr : UInt32} (haddr : addr ≠ 0) {n : ℕ} {ts : List AmdThread}
    (h : ts.length ≤ n) : wakeFutex addr n ts = ts.map (released addr) := by
  fun_induction wakeFutex addr n ts with
  | case1 n t ts ht ih => simp_all [released]
  | case2 n t ts ht ih => simp_all [released, Nat.le_of_succ_le]
  | case3 n ts hn =>
    cases ts with
    | nil => rfl
    | cons t ts => exact absurd rfl (hn (n - 1) t ts (by simp at h; omega))

theorem all_exited_wakeFutex (addr : UInt32) (n : ℕ) (ts : List AmdThread) :
    (wakeFutex addr n ts).all AmdThread.exited = ts.all AmdThread.exited := by
  fun_induction wakeFutex <;> simp_all

/-- The run ends with the exit code, or, if none is set, when the budget is spent or no thread can
be picked. -/
theorem next_eq_error_iff {code : ℤ} {spent : Bool} : p.next spent = .error code ↔
    p.exit_code = some code ∨ p.exit_code = none ∧
      (spent = true ∧ code = -1 ∨ spent = false ∧ code = 0 ∧ p.pick = none) := by
  unfold next
  cases p.exit_code with
  | some c => simp
  | none =>
    cases spent with
    | true => simp [eq_comm]
    | false => cases p.pick <;> simp [eq_comm]

/-- It ends with the code for every budget if that is the exit code: else it would be both the code
of a spent budget and that of a deadlock. -/
theorem forall_next_eq_error_iff {code : ℤ} :
    (∀ spent, p.next spent = .error code) ↔ p.exit_code = some code := by
  refine ⟨fun h => ?_, fun h spent => next_eq_error_iff.2 (.inl h)⟩
  have hspent := next_eq_error_iff.1 (h true)
  have hfresh := next_eq_error_iff.1 (h false)
  by_contra hne
  have hcode := (hspent.resolve_left hne).2
  have hcode' := (hfresh.resolve_left hne).2
  simp only [Bool.false_eq_true, Bool.true_eq_false, false_and, or_false, false_or,
    true_and] at hcode hcode'
  omega

variable (l r : List AmdThread) (t : AmdThread) (cur : ℕ) (code : ℤ)

/-- The exit of a thread in its place in the table. -/
theorem exitThread_eq : exitThread ⟨l ++ t :: r, cur, none⟩ l.length code =
    ⟨if t.clear_child_tid ≠ 0 then
        wakeFutex t.clear_child_tid (2 ^ 31 - 1) (l ++ { t with exited := true } :: r)
      else l ++ { t with exited := true } :: r, cur,
      if t.tid = 1 then some code else if ∀ u ∈ l ++ r, u.exited = true then some 0 else none⟩ := by
  unfold exitThread
  simp only [List.getElem?_append_right le_rfl, Nat.sub_self, List.getElem?_cons_zero,
    set_append_right _ _ le_rfl, set_cons_zero,
    apply_ite (List.all · AmdThread.exited), all_exited_wakeFutex, ite_self]
  congr 1
  have hall : (l ++ { t with exited := true } :: r).all AmdThread.exited = true ↔
      ∀ u ∈ l ++ r, u.exited = true := by simp [or_imp, forall_and]
  rw [if_congr hall rfl rfl]
  split_ifs <;> rfl

/-- The threads behind an exit. -/
theorem threads_exitThread (hlen : (l ++ t :: r).length < 2 ^ 31) :
    (exitThread ⟨l ++ t :: r, cur, none⟩ l.length code).threads =
      (l ++ { t with exited := true } :: r).map (released t.clear_child_tid) := by
  rw [exitThread_eq]
  dsimp only
  split_ifs with hcct
  · exact wakeFutex_eq_map hcct (by simp_all; omega)
  · rw [not_not.1 hcct, show released 0 = id from funext fun u => if_neg fun h => h.1 rfl, map_id]

/-- No thread gets a turn when none can be picked: the loop meets every index. -/
theorem pick_eq_none_iff : p.pick = none ↔ ∀ u ∈ p.threads, u.runnable = false := by
  simp only [pick, Option.map_eq_none_iff, List.find?_eq_none, mem_range]
  constructor
  · intro h u hu
    obtain ⟨i, hi, rfl⟩ := getElem_of_mem hu
    have hcur : p.cur % p.threads.length < p.threads.length := Nat.mod_lt _ (Nat.zero_lt_of_lt hi)
    have hmet := add_distance_mod hcur hi
    rw [Nat.mod_add_mod] at hmet
    have hrun := h (distance p.threads.length (p.cur % p.threads.length) i)
      (by unfold distance; split_ifs <;> omega)
    rw [hmet, runnable, getElem?_eq_getElem hi] at hrun
    simpa using hrun
  · intro h off hoff
    have hlt : (p.cur + off) % p.threads.length < p.threads.length :=
      Nat.mod_lt _ (Nat.zero_lt_of_lt hoff)
    rw [runnable, getElem?_eq_getElem hlt]
    simpa using h _ (getElem_mem hlt)

/-- Behind an exit no thread gets a turn when no other one can be picked. -/
theorem pick_exitThread (hlen : (l ++ t :: r).length < 2 ^ 31) :
    (exitThread ⟨l ++ t :: r, cur, none⟩ l.length code).pick = none ↔
      ∀ u ∈ l ++ r, (released t.clear_child_tid u).runnable = false := by
  have hself : (released t.clear_child_tid { t with exited := true }).runnable = false := by
    unfold released AmdThread.runnable
    split_ifs <;> simp
  rw [pick_eq_none_iff, threads_exitThread l r t cur code hlen]
  simp only [forall_mem_map, mem_append, mem_cons]
  constructor
  · exact fun h u hu => h u (hu.imp_right .inr)
  · rintro h u (hu | rfl | hu)
    · exact h u (.inl hu)
    · exact hself
    · exact h u (.inr hu)

/-- The exit code is set to the code of the call by the main thread, and to zero by the last one. -/
theorem exit_code_exitThread :
    ((exitThread ⟨l ++ t :: r, cur, none⟩ l.length code).exit_code = some code ↔
      t.tid = 1 ∨ code = 0 ∧ ∀ u ∈ l ++ r, u.exited = true) ∧
    ((exitThread ⟨l ++ t :: r, cur, none⟩ l.length code).exit_code = none ↔
      t.tid ≠ 1 ∧ ¬ ∀ u ∈ l ++ r, u.exited = true) := by
  rw [exitThread_eq]
  dsimp only
  split_ifs with hmain hall
  · simp [hmain]
  · refine ⟨?_, iff_of_false nofun fun h => h.2 hall⟩
    rw [or_iff_right hmain, and_iff_left hall, Option.some_inj, eq_comm]
  · exact ⟨iff_of_false nofun (not_or.2 ⟨hmain, fun h => hall h.2⟩), iff_of_true rfl ⟨hmain, hall⟩⟩

/-- **Exits.** When a thread calls `exit_group`, the run ends with its code, whatever is left of the
budget, exactly when it is the main thread, or when the code is zero and all other threads have
ended. For a given budget, another thread that is left does not go on either when the code is -1
and the budget is spent, or when the code is zero and no thread can be picked. When a thread other
than the main one calls `exit`, it ends, and nothing else changes but that waits on its
clear-child-tid word are over, and that the run ends if all other threads had ended. -/
theorem exit_ends_iff (is : List Instr) :
    ((∀ spent, (exec l.length (.exit true code :: is) ⟨l ++ t :: r, cur, none⟩).next spent =
      .error code) ↔ t.tid = 1 ∨ code = 0 ∧ ∀ u ∈ l ++ r, u.exited = true) ∧
    ((l ++ t :: r).length < 2 ^ 31 → ∀ spent,
      ((exec l.length (.exit true code :: is) ⟨l ++ t :: r, cur, none⟩).next spent = .error code ↔
        (t.tid = 1 ∨ code = 0 ∧ ∀ u ∈ l ++ r, u.exited = true) ∨
          (t.tid ≠ 1 ∧ ¬ ∀ u ∈ l ++ r, u.exited = true) ∧ (spent = true ∧ code = -1 ∨
            spent = false ∧ code = 0 ∧
              ∀ u ∈ l ++ r, (released t.clear_child_tid u).runnable = false))) ∧
    (t.tid ≠ 1 → (l ++ t :: r).length < 2 ^ 31 →
      exec l.length (.exit false code :: is) ⟨l ++ t :: r, cur, none⟩ =
        ⟨(l ++ { t with exited := true } :: r).map (released t.clear_child_tid), cur,
          if ∀ u ∈ l ++ r, u.exited = true then some 0 else none⟩) := by
  obtain ⟨hsome, hnone⟩ := exit_code_exitThread l r t cur code
  refine ⟨?_, fun hlen spent => ?_, fun hmain hlen => ?_⟩
  · rw [forall_next_eq_error_iff, exec, hsome]
  · rw [next_eq_error_iff, exec, hsome, hnone, pick_exitThread l r t cur code hlen]
  · rw [exec, ← threads_exitThread l r t cur code hlen, exitThread_eq, if_neg hmain]

/-- The second thread calls `exit_group`, and the main thread has its next turn. -/
theorem exit_group_goes_on : ∃ p, Reachable p ∧ p.next false = .ok 1 ∧
    (p.turn 1 [.exit true 3]).next false = .ok 0 :=
  ⟨(start.turn 0 [.clone ⟨2, none, 0, false, none⟩]).turn 0 [],
    .turn (.turn .start rfl _) rfl _, rfl, rfl⟩

end Process

end Univdreams.Emulator.Amd64
