import Mathlib.Tactic

/-!
# Semaphores of the Win32 emulator

`CreateSemaphoreA`, `WaitForSingleObject` and `ReleaseSemaphore` of `src/emulator/win32/kernel32.rs`
on one semaphore. A release cuts the count off at the maximum, but it wakes as many threads as it
was asked to add. Each of them takes one from the count, and a count of zero stays zero.
-/

namespace Univdreams.Emulator.Win32

/-- A semaphore, with the threads that `waiters_on` finds for its handle. -/
structure Semaphore where
  count : ℕ
  max : ℕ
  waiters : List ℕ

namespace Semaphore

/-- `stub_create_semaphore_a`, which does not compare the two numbers. -/
def create (init max : UInt32) : Semaphore := ⟨init.toNat, max.toNat, []⟩

variable (s : Semaphore)

/-- `consume_signal_if_auto_reset`. -/
def consumeSignal : Semaphore := { s with count := s.count - 1 }

/-- `wake_thread`. -/
def wakeThread (tid : ℕ) : Semaphore := { s.consumeSignal with waiters := s.waiters.erase tid }

/-- `stub_wait_for_single_object`, with the waits it completes. A thread that waits is blocked until
it is woken: nothing reads the time-out. -/
def waitForSingleObject (tid : ℕ) : Semaphore × ℕ :=
  if 0 < s.count then (s.consumeSignal, 1)
  else ({ s with waiters := s.waiters.orderedInsert (· ≤ ·) tid }, 0)

/-- The count that `stub_release_semaphore` sets. -/
def raised (release : UInt32) : ℕ := min (min (s.count + release.toNat) (2 ^ 32 - 1)) s.max

/-- `stub_release_semaphore`, with the waits it completes. If the previous count cannot be stored,
the call fails before any thread is woken. -/
def releaseSemaphore (release : UInt32) (stored : Bool) : Semaphore × ℕ :=
  let woken := if stored then s.waiters.take release.toNat else []
  (woken.foldl wakeThread { s with count := s.raised release }, woken.length)

end Semaphore

/-- A call of a thread. -/
inductive Call where
  | wait (tid : ℕ)
  | release (count : UInt32) (stored : Bool)

/-- A semaphore behind some calls, with the completed waits and the sum of what releases added. -/
structure History where
  sem : Semaphore
  completed : ℕ
  added : ℤ

namespace History

variable (h : History)

/-- One call. A blocked thread makes none. -/
def step : Call → History
  | .wait tid =>
    if tid ∈ h.sem.waiters then h
    else
      let (sem, done) := h.sem.waitForSingleObject tid
      ⟨sem, h.completed + done, h.added⟩
  | .release n stored =>
    let (sem, done) := h.sem.releaseSemaphore n stored
    ⟨sem, h.completed + done, h.added + (h.sem.raised n - h.sem.count)⟩

/-- A new semaphore behind the calls of a run. -/
def run (init max : UInt32) (calls : List Call) : History :=
  calls.foldl step ⟨.create init max, 0, 0⟩

/-- The completed waits and the count add up to the initial count and what was added, and the count
is at most the maximum. -/
def Balanced (init : UInt32) : Prop :=
  (h.completed + h.sem.count : ℤ) = init.toNat + h.added ∧ h.sem.count ≤ h.sem.max

/-- A release whose previous count can be stored does not find more threads to wake than the
maximum. -/
def Fits : Call → Prop
  | .wait _ => True
  | .release n stored => stored = true → min n.toNat h.sem.waiters.length ≤ h.sem.max

/-- Threads that are woken take one each from the count, down to zero. -/
theorem foldl_wakeThread (tids : List ℕ) (s : Semaphore) :
    (tids.foldl .wakeThread s).count = s.count - tids.length ∧
      (tids.foldl .wakeThread s).max = s.max := by
  induction tids generalizing s with
  | nil => exact ⟨rfl, rfl⟩
  | cons tid tids ih =>
    obtain ⟨hcount, hmax⟩ := ih (s.wakeThread tid)
    refine ⟨hcount.trans ?_, hmax⟩
    show s.count - 1 - tids.length = s.count - (tids.length + 1)
    omega

variable {h} {init : UInt32}

/-- The step lemma: a call keeps the balance exactly if it fits. -/
theorem balanced_step_iff (hb : h.Balanced init) (c : Call) :
    (h.step c).Balanced init ↔ h.Fits c := by
  obtain ⟨hsum, hle⟩ := hb
  cases c with
  | wait tid =>
    refine iff_of_true ?_ trivial
    unfold step Semaphore.waitForSingleObject
    dsimp only
    split_ifs
    · exact ⟨hsum, hle⟩
    · constructor <;> dsimp only [Semaphore.consumeSignal] <;> omega
    · exact ⟨hsum, hle⟩
  | release n stored =>
    unfold step Balanced Fits Semaphore.releaseSemaphore
    dsimp only
    generalize hwoken : (if stored then h.sem.waiters.take n.toNat else []) = woken
    have hlength : woken.length = if stored then min n.toNat h.sem.waiters.length else 0 := by
      rw [← hwoken]
      split <;> simp
    -- What was asked for is a word: of the three bounds on the count only the maximum can be less.
    have hword := n.toNat_lt
    obtain ⟨hcount, hmax⟩ := foldl_wakeThread woken { h.sem with count := h.sem.raised n }
    rw [hcount, hmax]
    dsimp only [Semaphore.raised]
    cases stored with
    | false =>
      rw [if_neg Bool.false_ne_true] at hlength
      exact iff_of_true (by omega) nofun
    | true =>
      rw [if_pos rfl] at hlength
      rw [imp_iff_right rfl]
      omega

/-- The counts add up behind every call of a run exactly if the initial count is at most the maximum
and every release of the run fits. -/
theorem balanced_run_iff (init max : UInt32) (calls : List Call) :
    (∀ pre, pre <+: calls → (run init max pre).Balanced init) ↔
      init ≤ max ∧ ∀ pre c, pre ++ [c] <+: calls → (run init max pre).Fits c := by
  have hrun : ∀ pre c, run init max (pre ++ [c]) = (run init max pre).step c :=
    fun pre c => List.foldl_concat ..
  constructor
  · intro hall
    refine ⟨(hall [] List.nil_prefix).2, fun pre c hpre => ?_⟩
    have hbefore := hall pre ((List.prefix_append pre [c]).trans hpre)
    apply (balanced_step_iff hbefore c).1
    rw [← hrun]
    exact hall _ hpre
  rintro ⟨hinit, hfits⟩ pre hpre
  induction pre using List.reverseRecOn with
  | nil => exact ⟨by simp [run, Semaphore.create], hinit⟩
  | append_singleton pre c ih =>
    rw [hrun]
    exact (balanced_step_iff (ih ((List.prefix_append pre [c]).trans hpre)) c).2 (hfits pre c hpre)

/-- Two threads wait on a semaphore with the maximum one. A release of two adds one, and completes
both waits. -/
theorem not_balanced_two : ¬(run 0 1 [.wait 1, .wait 2, .release 2 true]).Balanced 0 := by
  unfold Balanced
  decide

end History

end Univdreams.Emulator.Win32
