import Mathlib.Algebra.Group.Int.Defs
import Mathlib.Algebra.Group.Nat.Defs
import ThreadPool.Model.Lifecycle

/-!
# ThreadPool — the timeout of the dequeue

`worker()` dequeues with the timeout `DEQUEUE_TIMEOUT`, so that it comes back
to `while (!done_)` when the queue stays empty. The timeout is a number of
milliseconds; the queue converts it to microseconds, and the semaphore below
takes a negative number of them for "wait forever". Here the timeout of the
pool, which `Model/Impl.lean` lets happen at any time, happens only if the
wait can expire (`timeoutGuard`).

* `microseconds_nonneg` — which timeouts are handed on as non-negative;
* `destructor_hangs` — with a wait that never expires the destructor waits
  for workers that wait for a task nobody can schedule any more;
* `flag_polled` — the flag is always polled exactly for the timeouts whose
  conversion keeps the sign (and, with the semaphore of Windows, does not hit
  its number for "forever").
-/

namespace ThreadPool.Model

open ThreadPool.Lib
open Process (only)

variable {n : Nat} {τ : Type} {L : Types}

-- ---------------------------------------------------------------------------
-- From milliseconds to a wait
-- ---------------------------------------------------------------------------

/-- Which class `Semaphore` is compiled. -/
inductive Platform
  | windows
  | mach
  | unix
  deriving DecidableEq

/-- The count of a `duration_cast<std::chrono::microseconds>` of this many
`std::chrono::milliseconds`: a multiplication in 64 bits. -/
def microseconds (timeout : Int64) : Int64 := timeout * 1000

/-- What `waitManyWithPartialSpinning` does when nothing can be acquired. -/
inductive Wait
  /-- it returns 0 at once -/
  | poll
  /-- `m_sema.wait()` -/
  | indefinite
  /-- `m_sema.timed_wait(usecs)` -/
  | timed (usecs : UInt64)
  deriving DecidableEq

/-- The wait is selected by `timeout_usecs == 0`, `< 0` and `> 0`. -/
def Wait.of (timeoutUsecs : Int64) : Wait :=
  if timeoutUsecs = 0 then .poll
  else if timeoutUsecs < 0 then .indefinite
  else .timed timeoutUsecs.toUInt64

/-- The wait ends when no signal comes. On Windows `timed_wait` passes
`(unsigned long)(usecs / 1000)` to the function, and in 32 bits the number,
that `wait` calls with `infinite`. -/
def Wait.expires (p : Platform) : Wait → Bool
  | .poll => true
  | .indefinite => false
  | .timed usecs =>
    match p with
    | .windows => (usecs / 1000).toUInt32 ≠ 0xffffffff
    | _ => true

/-- `wait_dequeue_bulk_timed` returns empty-handed only if nothing is asked
of it, so that it does not wait, or if the wait expires. -/
def timeoutGuard (p : Platform) (B : Nat) (timeout : Int64) (s : ParameterizedPool n τ) :
    Control n → Bool
  | .dequeueReturn w =>
    match (s.workers w).pc with
    | .waiting 0 => B = 0 || (Wait.of (microseconds timeout)).expires p
    | _ => true
  | _ => true

/-- The process with a pool of `DEQUEUE_TIMEOUT = timeout`. -/
def Process.timed (p : Platform) (n B : Nat) (L : Types) (timeout : Int64) :
    System (Process n L) (Process.Op n L) :=
  (Process.system n B L).restrict (Process.guard (timeoutGuard p B timeout))

/-- The stop flag is always polled: the timeout handed to the semaphore is not
negative; no worker is ever in the wait that a negative one selects; and
while the pool exists, a worker that waits on an empty queue after `stop()`
can time out and leave. -/
structure Polled (p : Platform) (n B : Nat) (L : Types) (timeout : Int64) : Prop where
  nonneg : 0 ≤ microseconds timeout
  bounded : ∀ s, (Process.timed p n B L timeout).Reachable s → ∀ w,
    (s.pool.workers w).pc = .waiting 0 → Wait.of (microseconds timeout) ≠ .indefinite
  leaves : ∀ s, (Process.timed p n B L timeout).Reachable s → s.pool.abort = none →
    s.pool.life.doneAlive = true → s.pool.done = true → s.pool.tasks = [] →
      ∀ w, (s.pool.workers w).pc = .waiting 0 →
        ∃ s₁ s₂ s₃,
          (Process.timed p n B L timeout).step s (.control (.dequeueReturn w)) = some s₁ ∧
          (Process.timed p n B L timeout).step s₁ (.control (.loop w)) = some s₂ ∧
          (Process.timed p n B L timeout).step s₂ (.control (.check w)) = some s₃ ∧
          (s₃.pool.workers w).pc = .exited

-- ---------------------------------------------------------------------------
-- The conversion
-- ---------------------------------------------------------------------------

/-- A product is wrapped to a non-negative number if it lies in an even one
of the intervals of length `2 ^ 63`. -/
theorem bmod_nonneg (x : Int) : 0 ≤ x.bmod (2 ^ 64) ↔ x / 2 ^ 63 % 2 = 0 := by
  have hHalf : x / 2 ^ 63 / 2 = x / 2 ^ 64 := Int.ediv_ediv_of_nonneg (by decide)
  rw [Int.bmod_def]
  simp only [Int.reducePow, Nat.reducePow] at hHalf ⊢
  split <;> omega

theorem bmod_eq_emod {x : Int} (h : 0 ≤ x.bmod (2 ^ 64)) : x.bmod (2 ^ 64) = x % 2 ^ 64 := by
  rw [Int.bmod_def] at h ⊢
  simp only [Int.reducePow, Nat.reducePow] at h ⊢
  split at h
  · next hLt =>
    rw [if_pos hLt]
    rfl
  · -- the number wrapped to is negative
    omega

theorem toInt_microseconds (timeout : Int64) :
    (microseconds timeout).toInt = (timeout.toInt * 1000).bmod (2 ^ 64) :=
  Int64.toInt_mul timeout 1000

theorem microseconds_nonneg (timeout : Int64) :
    0 ≤ microseconds timeout ↔ timeout.toInt * 1000 / 2 ^ 63 % 2 = 0 := by
  rw [Int64.le_iff_toInt_le, toInt_microseconds, Int64.toInt_zero]
  exact bmod_nonneg _

theorem Wait.of_eq_indefinite {timeoutUsecs : Int64} :
    Wait.of timeoutUsecs = .indefinite ↔ timeoutUsecs < 0 := by
  unfold Wait.of
  split
  · next hZero => simp [hZero]
  · split <;> simp_all

/-- A non-negative timeout expires, but for one number on Windows. -/
theorem Wait.expires_iff {p : Platform} {timeout : Int64} (h : 0 ≤ microseconds timeout) :
    (Wait.of (microseconds timeout)).expires p = true ↔
      (p = .windows → timeout.toInt * 1000 % 2 ^ 64 / 1000 % 2 ^ 32 ≠ 2 ^ 32 - 1) := by
  have hPos : 0 ≤ (microseconds timeout).toInt := by
    simpa using Int64.le_iff_toInt_le.mp h
  have hInt : (microseconds timeout).toInt = timeout.toInt * 1000 % 2 ^ 64 := by
    rw [toInt_microseconds] at hPos ⊢
    exact bmod_eq_emod hPos
  -- as the unsigned number that `timed_wait` takes
  have hUsecs : ((microseconds timeout).toUInt64.toNat : Int) =
      timeout.toInt * 1000 % 2 ^ 64 := by
    rw [Int64.toNat_toUInt64_of_le h, Int64.toNatClampNeg, Int.toNat_of_nonneg hPos, hInt]
  have hNot : ¬ microseconds timeout < 0 := by
    rw [Int64.lt_iff_toInt_lt, Int64.toInt_zero]
    omega
  -- so only the waits `poll` and `timed` are left
  unfold Wait.of
  by_cases hZero : microseconds timeout = 0
  · rw [hZero] at hUsecs
    have hNone : timeout.toInt * 1000 % 2 ^ 64 = 0 := hUsecs.symm
    rw [if_pos hZero, hNone]
    simp [expires]
  rw [if_neg hZero, if_neg hNot]
  cases p with
  | mach | unix => simp [expires]
  | windows =>
    -- the number for "forever" is that of 32 ones
    have hLow : ((microseconds timeout).toUInt64 / 1000).toUInt32 = 0xffffffff ↔
        (microseconds timeout).toUInt64.toNat / 1000 % 2 ^ 32 = 2 ^ 32 - 1 := by
      rw [← UInt32.toNat_inj, UInt64.toNat_toUInt32, UInt64.toNat_div]
      rfl
    simp only [expires, decide_eq_true_eq, ne_eq, hLow, forall_const, ← hUsecs]
    omega

-- ---------------------------------------------------------------------------
-- A worker that times out
-- ---------------------------------------------------------------------------

namespace ParameterizedPool

variable {B : Nat} {s s' : ParameterizedPool n τ} {w : Fin n}

/-- An empty-handed return leads to the test of the flag, and out. -/
theorem timeout_exits (hAlive : s.abort = none) (hLife : s.life.doneAlive = true)
    (hDone : s.done = true) (hPc : (s.workers w).pc = .waiting 0) :
    ∃ s₁ s₂ s₃, s.step B (.control (.dequeueReturn w)) = some s₁ ∧
      s₁.step B (.control (.loop w)) = some s₂ ∧ s₂.step B (.control (.check w)) = some s₃ ∧
      (s₃.workers w).pc = .exited := by
  have hQueue := Life.tasksAlive_of_doneAlive hLife
  -- no slot is filled, so the loop over the batch ends at once
  refine ⟨s.setWorker w ⟨.looping 0 0, (s.workers w).runnable⟩ [.dequeued 0],
    (s.setWorker w ⟨.looping 0 0, (s.workers w).runnable⟩ [.dequeued 0]).setWorker w
      ⟨.check, []⟩ [],
    ((s.setWorker w ⟨.looping 0 0, (s.workers w).runnable⟩ [.dequeued 0]).setWorker w
      ⟨.check, []⟩ []).setWorker w ⟨.exited, []⟩ [], ?_, ?_, ?_, by simp⟩
  · simp [step, control, dequeueReturn, hAlive, hPc, hQueue]
  · simp [step, control, loop, hAlive, setWorker]
  · simp [step, control, check, hAlive, setWorker, hLife, hDone]

/-- Every worker waits on the empty queue, and the destructor waits for one
of them. -/
structure Waiting (s : ParameterizedPool n τ) : Prop where
  workers : ∀ w, (s.workers w).pc = .waiting 0
  tasks : s.tasks = []
  life : s.life = .destructing
  joining : ∃ k w, s.awaiting = some (.client k, w.val) ∧ s.threads w = .joinable

theorem Waiting.not_mayCall (h : s.Waiting) (th : Thread n) : s.mayCall th = false := by
  rw [Bool.eq_false_iff]
  intro hCall
  cases th with
  | client k =>
    have hLife := mayCall_client hCall
    rw [h.life] at hLife
    cases hLife
  | worker w =>
    obtain ⟨-, i, k, hPc⟩ := mayCall_worker hCall
    rw [h.workers w] at hPc
    cases hPc

theorem Waiting.current (h : s.Waiting) (w : Fin n) : s.current w = none := by
  rw [ParameterizedPool.current, h.workers w]

/-- Then the only step is a timeout. -/
theorem Step.timeout_of_waiting {a : Action n τ} (hStep : Step B s a s') (h : s.Waiting) :
    ∃ w, a = .control (.dequeueReturn w) := by
  obtain ⟨k, v, hAwait, hThread⟩ := h.joining
  cases hStep with
  | dequeueReturn w => exact ⟨w, rfl⟩
  -- the other steps of a worker start elsewhere in its loop
  | exit w hPc | enter w hPc | invoke w _ _ _ hPc | again w _ _ hPc | taskReturn w _ _ _ hPc =>
    rw [h.workers w] at hPc
    cases hPc
  | dequeueElem w i c e _ hElem =>
    rw [h.tasks] at hElem
    cases hElem
  -- the destructor is running, and has not got past `await()`
  | spawn _ _ hLife | built _ _ hLife | spawnThrows _ _ hLife | destroy _ hLife
  | teardownDone _ hLife | teardownTasks _ hLife | teardownThreads _ hLife =>
    rw [h.life] at hLife
    cases hLife
  | stop th hCall | await th hCall | enqueue th _ _ hCall =>
    rw [h.not_mayCall th] at hCall
    cases hCall
  | joined th i hLt _ _ hExit =>
    rw [h.workers] at hExit
    cases hExit
  | joinThrows th i hLt hAwait' hThrow =>
    -- the destructor runs on a client, and the thread it joins is joinable
    rw [hAwait] at hAwait'
    cases hAwait'
    cases hThrow hThread
  | awaited th i hGe hAwait' =>
    rw [hAwait] at hAwait'
    cases hAwait'
    exact absurd v.isLt (by omega)
  | abort _ r hCause =>
    cases hCause with
    | returnGone w => exact ⟨w, rfl⟩
    | growThrows _ hLife | joinable _ _ hLife =>
      rw [h.life] at hLife
      cases hLife
    | unfilledSlot w _ _ hPc | outOfBounds w _ _ hPc | doneGone w hPc =>
      rw [h.workers w] at hPc
      cases hPc
    | elemGone w i c _ hLife =>
      rw [h.life] at hLife
      cases hLife
    | noexceptThrow th hCall =>
      rw [h.not_mayCall th] at hCall
      cases hCall
    | escaped w e hCur =>
      rw [h.current w] at hCur
      cases hCur

end ParameterizedPool

-- ---------------------------------------------------------------------------
-- The process
-- ---------------------------------------------------------------------------

namespace Process

variable {p : Platform} {B : Nat} {timeout : Int64} {s : Process n L}

/-- **The destructor hangs.** If the wait never expires, nothing happens any
more once the destructor waits for workers that all wait for a task. -/
theorem destructor_hangs (hB : 0 < B)
    (hNever : (Wait.of (microseconds timeout)).expires p = false) (hWaiting : s.pool.Waiting)
    (op : Op n L) : (timed p n B L timeout).step s op = none := by
  by_contra hSome
  obtain ⟨s', hStep⟩ := Option.ne_none_iff_exists'.mp hSome
  obtain ⟨hGuard, hPlain⟩ := System.restrict_step.mp hStep
  cases step_cases hPlain with
  | control c pool hPool =>
    -- the step is a timeout, which the guard does not admit
    obtain ⟨w, hEq⟩ := (ParameterizedPool.step_cases hPool).2.timeout_of_waiting hWaiting
    cases hEq
    simp only [guard, timeoutGuard, hWaiting.workers w, hNever, Bool.or_false,
      decide_eq_true_eq] at hGuard
    omega
  | call _ th _ hReady =>
    have hCall := (ready_iff.mp hReady).2
    rw [hWaiting.not_mayCall th] at hCall
    cases hCall
  | returned w _ _ _ hCur | threw w _ _ _ _ hCur =>
    rw [hWaiting.current w] at hCur
    cases hCur

theorem timed_leads (p : Platform) (timeout : Int64) {c : Control n}
    {pool : ParameterizedPool n (Consumer L)} (hPool : s.pool.step B (.control c) = some pool)
    (hGuard : timeoutGuard p B timeout s.pool c = true) :
    ∃ t, (timed p n B L timeout).Leads s t ∧ t.pool = pool := by
  have hAdmitted : guard (timeoutGuard p B timeout) s (.control c) = true := hGuard
  exact ⟨_, .single (System.restrict_step.mpr ⟨hAdmitted, step_control hPool⟩), rfl⟩

/-- The constructor can always return. -/
theorem constructor_returns (p : Platform) (timeout : Int64) (hAlive : s.pool.abort = none)
    {k : Nat} (hLife : s.pool.life = .constructing k) (hLe : k ≤ n) :
    ∃ t, (timed p n B L timeout).Leads s t ∧ t.pool.life = .alive ∧ t.pool.abort = none ∧
      t.pool.awaiting = s.pool.awaiting ∧ t.pool.tasks = s.pool.tasks ∧
      ∀ w : Fin n, w.val < k → t.pool.workers w = s.pool.workers w := by
  induction hRest : n - k generalizing s k with
  | zero =>
    have hStep : s.pool.step B (.control .spawn) = some { s.pool with life := .alive } := by
      have hNot : ¬ k < n := by omega
      simp [ParameterizedPool.step, ParameterizedPool.control, ParameterizedPool.spawn, hAlive,
        hLife, hNot]
    obtain ⟨t, hLeads, hPool⟩ := timed_leads p timeout hStep rfl
    refine ⟨t, hLeads, ?_⟩
    rw [hPool]
    exact ⟨rfl, hAlive, rfl, rfl, fun _ _ => rfl⟩
  | succ d ih =>
    have hLt : k < n := by omega
    have hStep : s.pool.step B (.control .spawn) = some { s.pool with
        threads := Function.update s.pool.threads ⟨k, hLt⟩ .joinable
        workers := Function.update s.pool.workers ⟨k, hLt⟩ ⟨.check, []⟩
        life := .constructing (k + 1) } := by
      simp [ParameterizedPool.step, ParameterizedPool.control, ParameterizedPool.spawn, hAlive,
        hLife, hLt]
    obtain ⟨t, hLeads, hPool⟩ := timed_leads p timeout hStep rfl
    obtain ⟨u, hOn, hBuilt, hAlive', hAwait, hTasks, hWorkers⟩ :=
      ih (s := t) (k := k + 1) (by rw [hPool]; exact hAlive) (by rw [hPool]) hLt (by omega)
    refine ⟨u, hLeads.trans hOn, hBuilt, hAlive', by rw [hAwait, hPool], by rw [hTasks, hPool],
      fun w hw => ?_⟩
    have hNe : w ≠ ⟨k, hLt⟩ := fun hEq => by
      rw [hEq] at hw
      exact Nat.lt_irrefl k hw
    rw [hWorkers w (by omega), hPool]
    exact Function.update_of_ne hNe ..

/-- The first thread can be waiting before the others are created. -/
theorem first_waits (p : Platform) (B : Nat) (L : Types) (timeout : Int64) (hn : 0 < n) :
    ∃ s, (timed p n B L timeout).Reachable s ∧ s.pool.abort = none ∧
      s.pool.life = .constructing 1 ∧ s.pool.awaiting = none ∧ s.pool.tasks = [] ∧
      (s.pool.workers ⟨0, hn⟩).pc = .waiting 0 := by
  let s₀ : Process n L := (system n B L).init
  have hSpawn : s₀.pool.step B (.control .spawn) = some { s₀.pool with
      threads := Function.update s₀.pool.threads ⟨0, hn⟩ .joinable
      workers := Function.update s₀.pool.workers ⟨0, hn⟩ ⟨.check, []⟩
      life := .constructing 1 } := by
    simp [s₀, system, ParameterizedPool.step, ParameterizedPool.control, ParameterizedPool.spawn,
      ParameterizedPool.init, hn]
  obtain ⟨s₁, hFirst, hPool₁⟩ := timed_leads p timeout hSpawn rfl
  have hCheck : s₁.pool.step B (.control (.check ⟨0, hn⟩)) =
      some (s₁.pool.setWorker ⟨0, hn⟩ ⟨.waiting 0, List.replicate B none⟩ [.enter]) := by
    rw [hPool₁]
    simp [s₀, system, ParameterizedPool.step, ParameterizedPool.control, ParameterizedPool.check,
      ParameterizedPool.init, Life.doneAlive]
  obtain ⟨s₂, hSecond, hPool₂⟩ := timed_leads p timeout hCheck rfl
  refine ⟨s₂, hFirst.trans hSecond, ?_⟩
  rw [hPool₂, hPool₁]
  exact ⟨rfl, rfl, rfl, rfl, by simp⟩

/-- In every pool with a thread, `stop()` can find a worker waiting on the
empty queue. -/
theorem stopped_waiting (p : Platform) (B : Nat) (L : Types) (timeout : Int64) (hn : 0 < n) :
    ∃ s, (timed p n B L timeout).Reachable s ∧ s.pool.abort = none ∧
      s.pool.life.doneAlive = true ∧ s.pool.done = true ∧ s.pool.tasks = [] ∧
      (s.pool.workers ⟨0, hn⟩).pc = .waiting 0 := by
  obtain ⟨s, hReach, hAlive, hLife, hFree, hEmpty, hPc⟩ := first_waits p B L timeout hn
  obtain ⟨t, hBuild, hBuilt, hAlive', hAwait, hTasks, hWorkers⟩ :=
    constructor_returns p timeout hAlive hLife hn
  -- a client calls `stop()`, which touches neither the queue nor the worker
  have hFree' : t.pool.awaiting = none := by
    rw [hAwait, hFree]
  have hStop : t.pool.step B (.control (.stop (.client 0))) =
      some { t.pool with done := true } := by
    simp [ParameterizedPool.step, ParameterizedPool.control, ParameterizedPool.stop, hAlive',
      ParameterizedPool.mayCall, hBuilt, hFree']
  obtain ⟨u, hLast, hPool⟩ := timed_leads p timeout hStop rfl
  refine ⟨u, hReach.leads (hBuild.trans hLast), ?_⟩
  rw [hPool]
  refine ⟨hAlive', by simp [hBuilt, Life.doneAlive], rfl, ?_, ?_⟩
  · show t.pool.tasks = []
    rw [hTasks, hEmpty]
  · show (t.pool.workers ⟨0, hn⟩).pc = .waiting 0
    rw [hWorkers ⟨0, hn⟩ Nat.zero_lt_one, hPc]

/-- A wait that expires lets a worker leave. -/
theorem leaves_of_expires (hExpires : (Wait.of (microseconds timeout)).expires p = true)
    (hAlive : s.pool.abort = none) (hLife : s.pool.life.doneAlive = true)
    (hDone : s.pool.done = true) {w : Fin n} (hPc : (s.pool.workers w).pc = .waiting 0) :
    ∃ s₁ s₂ s₃, (timed p n B L timeout).step s (.control (.dequeueReturn w)) = some s₁ ∧
      (timed p n B L timeout).step s₁ (.control (.loop w)) = some s₂ ∧
      (timed p n B L timeout).step s₂ (.control (.check w)) = some s₃ ∧
      (s₃.pool.workers w).pc = .exited := by
  obtain ⟨p₁, p₂, p₃, hReturn, hLoop, hCheck, hOut⟩ :=
    ParameterizedPool.timeout_exits (B := B) hAlive hLife hDone hPc
  have hAdmitted : guard (timeoutGuard p B timeout) s (.control (.dequeueReturn w)) = true := by
    simp [guard, timeoutGuard, hPc, hExpires]
  let s₁ : Process n L := ⟨p₁, (destroyed s.pool (.dequeueReturn w)).foldl Consumer.destroy s.heap⟩
  let s₂ : Process n L := ⟨p₂, (destroyed s₁.pool (.loop w)).foldl Consumer.destroy s₁.heap⟩
  let s₃ : Process n L := ⟨p₃, (destroyed s₂.pool (.check w)).foldl Consumer.destroy s₂.heap⟩
  exact ⟨s₁, s₂, s₃, System.restrict_step.mpr ⟨hAdmitted, step_control hReturn⟩,
    System.restrict_step.mpr ⟨rfl, step_control hLoop⟩,
    System.restrict_step.mpr ⟨rfl, step_control hCheck⟩, hOut⟩

end Process

/-- **Polling the flag.** For every `DEQUEUE_TIMEOUT`, a pool of any size and
any batch size from 1 on, the stop flag is always polled if and only if the
exact number of microseconds lies in an even one of the intervals of length
`2 ^ 63` (as every number up to `2 ^ 63 - 1` does), and, for a pool with
threads on Windows, its milliseconds are not the number that stands for
"forever" in 32 bits. -/
theorem flag_polled (p : Platform) (n : Nat) {B : Nat} (L : Types) (timeout : Int64)
    (hB : 1 ≤ B) :
    Polled p n B L timeout ↔
      timeout.toInt * 1000 / 2 ^ 63 % 2 = 0 ∧
        (0 < n → p = .windows →
          timeout.toInt * 1000 % 2 ^ 64 / 1000 % 2 ^ 32 ≠ 2 ^ 32 - 1) := by
  constructor
  · intro hPolled
    refine ⟨(microseconds_nonneg timeout).mp hPolled.nonneg, fun hn => ?_⟩
    rw [← Wait.expires_iff hPolled.nonneg]
    -- a worker that waits after `stop()` can time out, so the guard admits it
    obtain ⟨s, hReach, hAlive, hLife, hDone, hTasks, hPc⟩ :=
      Process.stopped_waiting p B L timeout hn
    obtain ⟨s₁, -, -, hStep, -⟩ := hPolled.leaves s hReach hAlive hLife hDone hTasks _ hPc
    obtain ⟨hGuard, -⟩ := System.restrict_step.mp hStep
    have hNonempty : B ≠ 0 := by omega
    simpa [Process.guard, timeoutGuard, hPc, hNonempty] using hGuard
  · rintro ⟨hEven, hForever⟩
    have hNonneg := (microseconds_nonneg timeout).mpr hEven
    refine ⟨hNonneg, ?_, ?_⟩
    · intro s _ w _ hWait
      have hNeg := Wait.of_eq_indefinite.mp hWait
      rw [Int64.le_iff_toInt_le] at hNonneg
      rw [Int64.lt_iff_toInt_lt] at hNeg
      omega
    · intro s _ hAlive hLife hDone _ w hPc
      -- the pool has a thread, namely `w`
      have hn : 0 < n := by
        have := w.isLt
        omega
      have hExpires := (Wait.expires_iff hNonneg).mpr (hForever hn)
      exact Process.leaves_of_expires hExpires hAlive hLife hDone hPc

/-- The default values of the template parameters. -/
theorem flag_polled_default : Polled .unix 1 500 Process.natTypes 1000 :=
  (flag_polled .unix 1 Process.natTypes 1000 (by decide)).mpr ⟨by decide, fun _ h => nomatch h⟩

/-- The least number of milliseconds whose microseconds do not fit. -/
def overflowing : Int64 := 9223372036854776

/-- The worker waits for a task, and the destructor waits for the worker. -/
def hung : Process 1 Process.natTypes :=
  ((Process.timed .unix 1 1 Process.natTypes overflowing).run
    (Process.timed .unix 1 1 Process.natTypes overflowing).init
    (Process.construct 1 ++ [.control (.check only), .control (.destroy 0)])).get rfl

/-- The timeout is handed on as a negative number, and the process is stuck
with the flag set. -/
theorem overflowing_hangs :
    ¬ Polled .unix 1 1 Process.natTypes overflowing ∧
      (Process.timed .unix 1 1 Process.natTypes overflowing).Reachable hung ∧
      hung.pool.done = true ∧
      ∀ op, (Process.timed .unix 1 1 Process.natTypes overflowing).step hung op = none := by
  have hWaiting : hung.pool.Waiting :=
    { workers := fun w => by rw [Subsingleton.elim w only]; rfl
      tasks := rfl
      life := rfl
      joining := ⟨0, only, rfl, rfl⟩ }
  refine ⟨fun hPolled => absurd hPolled.nonneg (by decide), System.Reachable.get _ rfl, rfl,
    fun op => ?_⟩
  exact Process.destructor_hangs Nat.one_pos (by decide) hWaiting op

end ThreadPool.Model
