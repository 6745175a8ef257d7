import ThreadPool.Model.Dispatch
import ThreadPool.Model.Permits

/-!
# ThreadPool — the pool over `BlockingConcurrentQueue`

`tasks_` is a queue `inner` and a semaphore `sema`. An `enqueue` is one on
`inner`, then `sema->signal`; `wait_dequeue_bulk_timed` is `sema->waitMany`,
then `inner.try_dequeue_bulk` until as many elements have come as permits.
This module puts the two under the pool of `Model/Impl.lean`: the steps of the
pool, those of `Model/Semaphore.lean` for the calls the pool makes, and no
dequeue that `waitMany` has not paid for.

* `Blocking.refines` — the pool never notices: every state it reaches is one
  that the pool model reaches;
* `Blocking.paid_for` — a worker that has permits finds that many elements;
* `Blocking.no_task_left` — workers do not sleep next to a task;
* `Blocking.size_bounded` — `size_approx` counts no task that is not there;
* `Blocking.wait_returns` — a wait with a timeout always comes back.
-/

namespace ThreadPool.Model

open ThreadPool.Lib

-- ---------------------------------------------------------------------------
-- The system
-- ---------------------------------------------------------------------------

/-- A pool, the semaphore of its queue, the call of `waitMany` of each worker
inside `wait_dequeue_bulk_timed`, and the calls of `signal` in progress. -/
structure Blocking (n : Nat) (τ : Type) where
  pool : ParameterizedPool n τ
  sema : LightweightSemaphore
  waits : Fin n → Option LightweightSemaphore.Pc
  signals : List (Thread n × LightweightSemaphore.Pc)

namespace Blocking

variable {n : Nat} {τ : Type}

inductive Label (n : Nat) (τ : Type)
  | act (a : Action n τ)
  /-- a step of worker `w` in `waitMany` -/
  | wait (w : Fin n) (c : LightweightSemaphore.Choice)
  /-- a step of call `i` of `signal` -/
  | post (i : Nat) (c : LightweightSemaphore.Choice)
  /-- call `i` of `signal` returns, and the `enqueue` around it -/
  | posted (i : Nat)

/-- Thread `th` is inside `enqueue`. -/
def busy (s : Blocking n τ) (th : Thread n) : Bool := s.signals.any fun x => x.1 = th

/-- The dequeues of `wait_dequeue_bulk_timed` come after `waitMany` and are as
many as its permits; a thread does nothing else while it is inside `enqueue`,
and no client is inside `enqueue` when the destructor is called. -/
def admits (s : Blocking n τ) : Action n τ → Bool
  | .control (.dequeueElem w _) =>
    match (s.pool.workers w).pc, s.waits w with
    | .waiting count, some (.acquired k) => count < k
    | _, _ => false
  | .control (.dequeueReturn w) =>
    match (s.pool.workers w).pc, s.waits w with
    | .waiting count, some (.acquired k) => count = k
    | _, _ => false
  | .control (.destroy _) => s.signals.all fun x => match x.1 with
    | .client _ => false
    | .worker _ => true
  | .control (.stop th) => !s.busy th
  | .control (.await th) => !s.busy th
  | .control _ => true
  | .enqueue th _ _ => !s.busy th
  | .noexceptThrow th => !s.busy th
  | .taskReturn w => !s.busy (.worker w)
  | .taskThrow w => !s.busy (.worker w)

/-- The pool has taken the step `a` to `pool`: the calls into the semaphore
that begin with it, or have ended. -/
def follow (B : Nat) (timeout : Wait) (s : Blocking n τ) (a : Action n τ)
    (pool : ParameterizedPool n τ) : Blocking n τ :=
  if pool.abort.isSome then { s with pool := pool }
  else match a with
  | .control (.check w) =>
    if (pool.workers w).pc = .waiting 0 then
      { s with
        pool := pool
        waits := Function.update s.waits w (some (LightweightSemaphore.waitMany B timeout)) }
    else { s with pool := pool }
  | .control (.dequeueReturn w) =>
    { s with pool := pool, waits := Function.update s.waits w none }
  | .enqueue th _ vs =>
    { s with
      pool := pool
      signals := s.signals ++ [(th, LightweightSemaphore.signal vs.length)] }
  | _ => { s with pool := pool }

/-- `size_approx()`. -/
def sizeApprox (s : Blocking n τ) : Nat := s.sema.availableApprox

variable (p : Platform) (maxSpins B : Nat) (timeout : Wait)

/-- A step inside the semaphore uses `tasks_`. An `enqueue` on a queue that is
gone is left out, as `mayCall` leaves out calls on a pool that is gone. -/
def step (s : Blocking n τ) : Label n τ → Option (Blocking n τ)
  | .act a => if s.admits a then (s.pool.step B a).map (s.follow B timeout a) else none
  | .wait w c =>
    match s.waits w with
    | some pc =>
      if s.pool.abort.isSome ∨ pc.result.isSome then none
      else if s.pool.life.tasksAlive then
        (s.sema.step p maxSpins pc c).map fun r =>
          { s with sema := r.1, waits := Function.update s.waits w (some r.2) }
      else some { s with pool := s.pool.kill .dangling }
    | none => none
  | .post i c =>
    match s.signals[i]? with
    | some (th, pc) =>
      if s.pool.abort.isNone ∧ s.pool.life.tasksAlive then
        (s.sema.step p maxSpins pc c).map fun r =>
          { s with sema := r.1, signals := s.signals.set i (th, r.2) }
      else none
    | none => none
  | .posted i =>
    match s.signals[i]? with
    | some (_, .signalled) =>
      if s.pool.abort.isNone then some { s with signals := s.signals.eraseIdx i } else none
    | _ => none

/-- The pool of `n` threads over a queue whose semaphore spins `maxSpins`
times. -/
def system (n : Nat) (τ : Type) : System (Blocking n τ) (Label n τ) where
  init := ⟨ParameterizedPool.init, ⟨0, 0⟩, fun _ => none, []⟩
  step := step p maxSpins B timeout

variable {p maxSpins B timeout} {s s' : Blocking n τ}

/-- Every way a step can go. -/
inductive Move (p : Platform) (maxSpins B : Nat) (timeout : Wait) (s : Blocking n τ) :
    Label n τ → Blocking n τ → Prop
  | act (a : Action n τ) (pool : ParameterizedPool n τ) (hAdmits : s.admits a = true)
      (hStep : s.pool.step B a = some pool) :
      Move p maxSpins B timeout s (.act a) (s.follow B timeout a pool)
  | wait (w : Fin n) (c : LightweightSemaphore.Choice) (pc pc' : LightweightSemaphore.Pc)
      (sema : LightweightSemaphore) (hAbort : s.pool.abort = none) (hWait : s.waits w = some pc)
      (hBusy : pc.result = none) (hStep : s.sema.Step p maxSpins pc c sema pc') :
      Move p maxSpins B timeout s (.wait w c)
        { s with sema := sema, waits := Function.update s.waits w (some pc') }
  | dangling (w : Fin n) (c : LightweightSemaphore.Choice) (pc : LightweightSemaphore.Pc)
      (hAbort : s.pool.abort = none) (hWait : s.waits w = some pc)
      (hLife : s.pool.life.tasksAlive = false) :
      Move p maxSpins B timeout s (.wait w c) { s with pool := s.pool.kill .dangling }
  | post (i : Nat) (c : LightweightSemaphore.Choice) (th : Thread n)
      (pc pc' : LightweightSemaphore.Pc) (sema : LightweightSemaphore)
      (hSignal : s.signals[i]? = some (th, pc)) (hStep : s.sema.Step p maxSpins pc c sema pc') :
      Move p maxSpins B timeout s (.post i c)
        { s with sema := sema, signals := s.signals.set i (th, pc') }
  | posted (i : Nat) (th : Thread n) (hSignal : s.signals[i]? = some (th, .signalled)) :
      Move p maxSpins B timeout s (.posted i) { s with signals := s.signals.eraseIdx i }

theorem step_cases {l : Label n τ} (h : s.step p maxSpins B timeout l = some s') :
    Move p maxSpins B timeout s l s' := by
  cases l with
  | act a =>
    simp only [step] at h
    split at h
    · next hAdmits =>
      obtain ⟨pool, hStep, rfl⟩ := Option.map_eq_some_iff.mp h
      exact .act a pool hAdmits hStep
    · cases h
  | wait w c =>
    simp only [step] at h
    split at h
    · next pc hWait =>
      split at h
      · cases h
      · next hFree =>
        obtain ⟨hAbort, hBusy⟩ : s.pool.abort = none ∧ pc.result = none := by
          simpa using hFree
        split at h
        · obtain ⟨⟨sema, pc'⟩, hStep, rfl⟩ := Option.map_eq_some_iff.mp h
          exact .wait w c pc pc' sema hAbort hWait hBusy (LightweightSemaphore.step_cases hStep)
        · next hLife =>
          cases h
          exact .dangling w c pc hAbort hWait (by simpa using hLife)
    · cases h
  | post i c =>
    simp only [step] at h
    split at h
    · next th pc hSignal =>
      split at h
      · obtain ⟨⟨sema, pc'⟩, hStep, rfl⟩ := Option.map_eq_some_iff.mp h
        exact .post i c th pc pc' sema hSignal (LightweightSemaphore.step_cases hStep)
      · cases h
    · cases h
  | posted i =>
    simp only [step] at h
    split at h
    · next th hSignal =>
      split at h
      · cases h
        exact .posted i th hSignal
      · cases h
    · cases h

@[simp] theorem follow_pool (a : Action n τ) (pool : ParameterizedPool n τ) :
    (s.follow B timeout a pool).pool = pool := by
  unfold follow
  split
  · rfl
  · split
    · split <;> rfl
    all_goals rfl

-- ---------------------------------------------------------------------------
-- Refinement
-- ---------------------------------------------------------------------------

/-- What the waits of the workers have to do with where they stand: a worker
in `wait_dequeue_bulk_timed` is in `waitMany`, with nothing dequeued, or has
its permits and has dequeued no more than that. -/
def Paired (B : Nat) (timeout : Wait) : Pc → Option LightweightSemaphore.Pc → Prop
  | .waiting count, some (.acquired k) => count ≤ k ∧ k ≤ B
  | .waiting count, some pc =>
    count = 0 ∧ LightweightSemaphore.Crowd.Fits (.waitMany B timeout) pc
  | .waiting _, none => False
  | _, wait => wait = none

/-- A wait in progress belongs to a worker that has dequeued nothing. -/
theorem Paired.waiting {pc : Pc} {wait : LightweightSemaphore.Pc}
    (h : Paired B timeout pc (some wait)) (hBusy : wait.result = none) :
    pc = .waiting 0 ∧ LightweightSemaphore.Crowd.Fits (.waitMany B timeout) wait := by
  cases pc with
  | waiting count =>
    cases wait with
    | acquired k => cases hBusy
    | _ => exact ⟨congrArg Pc.waiting h.1, h.2⟩
  | _ => cases h

/-- A call of `waitMany` that fits is paired with a worker that has dequeued
nothing, returned or not. -/
theorem Paired.of_fits {wait : LightweightSemaphore.Pc}
    (h : LightweightSemaphore.Crowd.Fits (.waitMany B timeout) wait) :
    Paired B timeout (.waiting 0) (some wait) := by
  cases wait with
  | acquired k => exact ⟨Nat.zero_le k, h⟩
  | _ => exact ⟨rfl, h⟩

/-- Outside `wait_dequeue_bulk_timed` a worker has no wait. -/
theorem Paired.none_iff {pc : Pc} (hNot : ∀ c, pc ≠ .waiting c)
    {wait : Option LightweightSemaphore.Pc} : Paired B timeout pc wait ↔ wait = none := by
  cases pc with
  | waiting c => exact absurd rfl (hNot c)
  | _ => exact Iff.rfl

/-- The elements that `wait_dequeue_bulk_timed` has dequeued so far. -/
def dequeued : Pc → Nat
  | .waiting count => count
  | _ => 0

/-- The permits of a call of `signal` that have not come out of it yet. -/
def unpaid (x : Thread n × LightweightSemaphore.Pc) : Nat := x.2.posts + x.2.unsent

structure Balanced (B : Nat) (timeout : Wait) (s : Blocking n τ) : Prop where
  paired : ∀ w, Paired B timeout (s.pool.workers w).pc (s.waits w)
  signals : ∀ x ∈ s.signals, ∃ c, LightweightSemaphore.Crowd.Fits (.signal c) x.2
  tasks : s.pool.life.tasksAlive = true →
    s.pool.tasks.length + tally dequeued (fun w => (s.pool.workers w).pc) =
      s.sema.held + total unpaid s.signals +
        tally (ifSome LightweightSemaphore.Pc.granted) s.waits
  waiters : s.sema.debt + s.sema.sema + total (fun x => x.2.posts) s.signals =
    tally (ifSome LightweightSemaphore.Pc.waits) s.waits

theorem Balanced.init : Balanced B timeout (system p maxSpins B timeout n τ).init where
  paired _ := rfl
  signals x h := by cases h
  tasks _ := by
    have hPcs : tally dequeued (fun _ : Fin n => Pc.unstarted) = 0 := tally_eq_zero fun _ => rfl
    have hWaits : tally (ifSome LightweightSemaphore.Pc.granted)
        (fun _ : Fin n => none) = 0 := tally_eq_zero fun _ => rfl
    show 0 + tally dequeued (fun _ : Fin n => Pc.unstarted) = 0 + 0 + tally _ fun _ : Fin n => none
    rw [hPcs, hWaits]
  waiters := (tally_eq_zero fun _ => rfl).symm

/-- A step that neither dequeues nor begins or ends a dequeue. -/
theorem Balanced.quiet (h : Balanced B timeout s) {pool : ParameterizedPool n τ}
    (hPcs : ∀ w, (pool.workers w).pc = (s.pool.workers w).pc ∨
      (∀ c, (pool.workers w).pc ≠ .waiting c) ∧ ∀ c, (s.pool.workers w).pc ≠ .waiting c)
    (hTasks : pool.tasks = s.pool.tasks)
    (hLife : pool.life.tasksAlive = true → s.pool.life.tasksAlive = true) :
    Balanced B timeout { s with pool := pool } where
  paired w := by
    rcases hPcs w with hSame | ⟨hNew, hOld⟩
    · show Paired B timeout (pool.workers w).pc (s.waits w)
      rw [hSame]
      exact h.paired w
    · exact (Paired.none_iff hNew).mpr ((Paired.none_iff hOld).mp (h.paired w))
  signals := h.signals
  tasks hAlive := by
    have hBefore := h.tasks (hLife hAlive)
    have hSame : tally dequeued (fun w => (pool.workers w).pc) =
        tally dequeued (fun w => (s.pool.workers w).pc) := by
      refine tally_congr fun w => ?_
      rcases hPcs w with hSame | ⟨hNew, hOld⟩
      · rw [hSame]
      · have hZero : ∀ pc : Pc, (∀ c, pc ≠ .waiting c) → dequeued pc = 0 := by
          intro pc hNot
          cases pc with
          | waiting c => exact absurd rfl (hNot c)
          | _ => rfl
        rw [hZero _ hNew, hZero _ hOld]
    show pool.tasks.length + tally dequeued (fun w => (pool.workers w).pc) = _
    rw [hTasks, hSame]
    exact hBefore
  waiters := h.waiters

/-- The places of the workers after one has moved. -/
theorem pcs_setWorker (pool : ParameterizedPool n τ) (w : Fin n) (x : Worker n τ)
    (evs : List WorkerEvent) :
    (fun v => ((pool.setWorker w x evs).workers v).pc) =
      Function.update (fun v => (pool.workers v).pc) w x.pc := by
  funext v
  by_cases hEq : v = w
  · subst hEq
    rw [ParameterizedPool.setWorker_self, Function.update_self]
  · rw [ParameterizedPool.setWorker_of_ne hEq, Function.update_of_ne hEq]

/-- A worker moves from one place outside the dequeue to another. -/
theorem quiet_setWorker {pool : ParameterizedPool n τ} {w : Fin n} {x : Worker n τ}
    (evs : List WorkerEvent) (hNew : ∀ c, x.pc ≠ .waiting c)
    (hOld : ∀ c, (pool.workers w).pc ≠ .waiting c) (v : Fin n) :
    ((pool.setWorker w x evs).workers v).pc = (pool.workers v).pc ∨
      (∀ c, ((pool.setWorker w x evs).workers v).pc ≠ .waiting c) ∧
        ∀ c, (pool.workers v).pc ≠ .waiting c := by
  by_cases hEq : v = w
  · subst hEq
    rw [ParameterizedPool.setWorker_self]
    exact .inr ⟨hNew, hOld⟩
  · rw [ParameterizedPool.setWorker_of_ne hEq]
    exact .inl rfl

/-- One worker moves, and its call of `waitMany` with it. -/
theorem Balanced.paired_update (h : Balanced B timeout s) {w : Fin n} {x : Worker n τ}
    {evs : List WorkerEvent} {wait : Option LightweightSemaphore.Pc}
    (hPaired : Paired B timeout x.pc wait) (v : Fin n) :
    Paired B timeout ((s.pool.setWorker w x evs).workers v).pc
      (Function.update s.waits w wait v) := by
  by_cases hEq : v = w
  · subst hEq
    rw [ParameterizedPool.setWorker_self, Function.update_self]
    exact hPaired
  · rw [ParameterizedPool.setWorker_of_ne hEq, Function.update_of_ne hEq]
    exact h.paired v

theorem Balanced.enter (h : Balanced B timeout s) {w : Fin n}
    (hPc : (s.pool.workers w).pc = .check) (x : Worker n τ) (hX : x.pc = .waiting 0)
    (evs : List WorkerEvent) :
    Balanced B timeout { s with
      pool := s.pool.setWorker w x evs
      waits := Function.update s.waits w (some (LightweightSemaphore.waitMany B timeout)) } := by
  have hNone : s.waits w = none := by
    have hPaired := h.paired w
    rwa [hPc] at hPaired
  refine ⟨h.paired_update ?_, h.signals, ?_, ?_⟩
  · rw [hX]
    exact .of_fits ⟨rfl, rfl⟩
  · intro hAlive
    have hBefore := h.tasks hAlive
    have hGranted := tally_update (ifSome LightweightSemaphore.Pc.granted)
      s.waits w (some (LightweightSemaphore.waitMany B timeout))
    have hTaken := tally_update dequeued (fun v => (s.pool.workers v).pc) w x.pc
    rw [hNone] at hGranted
    rw [hPc, hX] at hTaken
    show s.pool.tasks.length + tally dequeued
      (fun v => ((s.pool.setWorker w x evs).workers v).pc) = _
    rw [pcs_setWorker, hX]
    simp only [ifSome, LightweightSemaphore.waitMany,
      LightweightSemaphore.Pc.granted, dequeued] at hGranted hTaken ⊢
    omega
  · have hBefore := h.waiters
    have hWaits := tally_update (ifSome LightweightSemaphore.Pc.waits)
      s.waits w (some (LightweightSemaphore.waitMany B timeout))
    rw [hNone] at hWaits
    simp only [ifSome, LightweightSemaphore.waitMany,
      LightweightSemaphore.Pc.waits] at hWaits ⊢
    omega

theorem Balanced.dequeueElem (h : Balanced B timeout s) {w : Fin n} {i c k : Nat}
    {e : Elem n τ} (hPc : (s.pool.workers w).pc = .waiting c)
    (hWait : s.waits w = some (.acquired k)) (hLt : c < k) (hElem : s.pool.tasks[i]? = some e)
    (x : Worker n τ) (hX : x.pc = .waiting (c + 1)) (evs : List WorkerEvent) :
    Balanced B timeout { s with
      pool := { s.pool.setWorker w x evs with tasks := s.pool.tasks.eraseIdx i } } := by
  have hPaired : c ≤ k ∧ k ≤ B := by
    have hPaired := h.paired w
    rwa [hPc, hWait] at hPaired
  obtain ⟨hIdx, -⟩ := List.getElem?_eq_some_iff.mp hElem
  refine ⟨?_, h.signals, ?_, h.waiters⟩
  · intro v
    have hStill : Paired B timeout x.pc (s.waits w) := by
      rw [hX, hWait]
      exact ⟨hLt, hPaired.2⟩
    have hNew : Paired B timeout ((s.pool.setWorker w x evs).workers v).pc _ :=
      h.paired_update hStill v
    rwa [Function.update_eq_self] at hNew
  · intro hAlive
    have hBefore := h.tasks hAlive
    have hTaken := tally_update dequeued (fun v => (s.pool.workers v).pc) w x.pc
    rw [hPc, hX] at hTaken
    show (s.pool.tasks.eraseIdx i).length +
      tally dequeued (fun v => ((s.pool.setWorker w x evs).workers v).pc) = _
    rw [pcs_setWorker, hX, List.length_eraseIdx_of_lt hIdx]
    simp only [dequeued] at hTaken ⊢
    omega

theorem Balanced.dequeueReturn (h : Balanced B timeout s) {w : Fin n} {k : Nat}
    (hPc : (s.pool.workers w).pc = .waiting k) (hWait : s.waits w = some (.acquired k))
    (x : Worker n τ) (hX : x.pc = .looping 0 k) (evs : List WorkerEvent) :
    Balanced B timeout { s with
      pool := s.pool.setWorker w x evs
      waits := Function.update s.waits w none } := by
  refine ⟨h.paired_update ?_, h.signals, ?_, ?_⟩
  · rw [hX]
    exact rfl
  · intro hAlive
    have hBefore := h.tasks hAlive
    have hGranted := tally_update (ifSome LightweightSemaphore.Pc.granted)
      s.waits w none
    have hTaken := tally_update dequeued (fun v => (s.pool.workers v).pc) w x.pc
    rw [hWait] at hGranted
    rw [hPc, hX] at hTaken
    show s.pool.tasks.length + tally dequeued
      (fun v => ((s.pool.setWorker w x evs).workers v).pc) = _
    rw [pcs_setWorker, hX]
    simp only [ifSome, LightweightSemaphore.Pc.granted, dequeued]
      at hGranted hTaken ⊢
    omega
  · have hBefore := h.waiters
    have hWaits := tally_update (ifSome LightweightSemaphore.Pc.waits)
      s.waits w none
    rw [hWait] at hWaits
    simp only [ifSome, LightweightSemaphore.Pc.waits] at hWaits ⊢
    omega

theorem Balanced.enqueue (h : Balanced B timeout s) (th : Thread n) (p : Producer n)
    (vs : List τ) :
    Balanced B timeout { s with
      pool := s.pool.enqueue p vs
      signals := s.signals ++ [(th, LightweightSemaphore.signal vs.length)] } := by
  refine ⟨h.paired, ?_, ?_, ?_⟩
  · intro x hx
    rcases List.mem_append.mp hx with hOld | hNew
    · exact h.signals x hOld
    · rw [List.mem_singleton.mp hNew]
      exact ⟨vs.length, rfl⟩
  · intro hAlive
    have hBefore := h.tasks hAlive
    show (s.pool.tasks ++ _).length + _ = _
    rw [List.length_append, ParameterizedPool.length_number, total_append, total_cons, total_nil]
    show s.pool.tasks.length + vs.length + tally dequeued (fun w => (s.pool.workers w).pc) =
      s.sema.held + (total unpaid s.signals + (0 + vs.length + 0)) + tally _ s.waits
    omega
  · have hBefore := h.waiters
    show _ + total (fun x => x.2.posts) (s.signals ++ _) = _
    rw [total_append, total_cons, total_nil]
    exact hBefore

theorem Balanced.wait (h : Balanced B timeout s) {w : Fin n} {c : LightweightSemaphore.Choice}
    {pc pc' : LightweightSemaphore.Pc} {sema : LightweightSemaphore}
    (hWait : s.waits w = some pc) (hBusy : pc.result = none)
    (hStep : s.sema.Step p maxSpins pc c sema pc') :
    Balanced B timeout
      { s with sema := sema, waits := Function.update s.waits w (some pc') } := by
  have hPaired := h.paired w
  rw [hWait] at hPaired
  obtain ⟨hPc, hFits⟩ := hPaired.waiting hBusy
  have hFits' := hFits.step hStep
  obtain ⟨hPosts, hUnsent⟩ := hFits.waitMany
  obtain ⟨hPosts', hUnsent'⟩ := hFits'.waitMany
  have hPermits := hStep.permits
  have hWaiters := hStep.waiters
  refine ⟨?_, h.signals, ?_, ?_⟩
  · intro v
    by_cases hEq : v = w
    · subst hEq
      show Paired B timeout (s.pool.workers v).pc (Function.update s.waits v (some pc') v)
      rw [Function.update_self, hPc]
      exact .of_fits hFits'
    · show Paired B timeout (s.pool.workers v).pc (Function.update s.waits w (some pc') v)
      rw [Function.update_of_ne hEq]
      exact h.paired v
  · intro hAlive
    have hBefore := h.tasks hAlive
    have hGranted := tally_update (ifSome LightweightSemaphore.Pc.granted)
      s.waits w (some pc')
    simp only [hWait, ifSome] at hGranted
    dsimp only
    omega
  · have hBefore := h.waiters
    have hWaits := tally_update (ifSome LightweightSemaphore.Pc.waits)
      s.waits w (some pc')
    simp only [hWait, ifSome] at hWaits
    dsimp only
    omega

theorem Balanced.post (h : Balanced B timeout s) {i : Nat} {th : Thread n}
    {c : LightweightSemaphore.Choice} {pc pc' : LightweightSemaphore.Pc}
    {sema : LightweightSemaphore} (hSignal : s.signals[i]? = some (th, pc))
    (hStep : s.sema.Step p maxSpins pc c sema pc') :
    Balanced B timeout { s with sema := sema, signals := s.signals.set i (th, pc') } := by
  obtain ⟨count, hFits⟩ : ∃ count, LightweightSemaphore.Crowd.Fits (.signal count) pc :=
    h.signals _ (List.mem_of_getElem? hSignal)
  have hFits' := hFits.step hStep
  obtain ⟨hGranted, hWaits⟩ := hFits.signal
  obtain ⟨hGranted', hWaits'⟩ := hFits'.signal
  have hPermits := hStep.permits
  have hWaiters := hStep.waiters
  refine ⟨h.paired, ?_, ?_, ?_⟩
  · intro x hx
    rcases List.mem_or_eq_of_mem_set hx with hOld | rfl
    · exact h.signals x hOld
    · exact ⟨count, hFits'⟩
  · intro hAlive
    have hBefore := h.tasks hAlive
    have hUnpaid : total unpaid (s.signals.set i (th, pc')) + (pc.posts + pc.unsent) =
        total unpaid s.signals + (pc'.posts + pc'.unsent) := total_set hSignal unpaid (th, pc')
    dsimp only
    omega
  · have hBefore := h.waiters
    have hPosts : total (fun x => x.2.posts) (s.signals.set i (th, pc')) + pc.posts =
        total (fun x => x.2.posts) s.signals + pc'.posts := total_set hSignal _ (th, pc')
    dsimp only
    omega

theorem Balanced.posted (h : Balanced B timeout s) {i : Nat} {th : Thread n}
    (hSignal : s.signals[i]? = some (th, .signalled)) :
    Balanced B timeout { s with signals := s.signals.eraseIdx i } where
  paired := h.paired
  signals x hx := h.signals x (List.mem_of_mem_eraseIdx hx)
  tasks hAlive := by
    have hBefore := h.tasks hAlive
    have hUnpaid : total unpaid (s.signals.eraseIdx i) + 0 = total unpaid s.signals :=
      total_eraseIdx hSignal unpaid
    show _ = s.sema.held + total unpaid (s.signals.eraseIdx i) + _
    rw [show total unpaid (s.signals.eraseIdx i) = total unpaid s.signals from hUnpaid]
    exact hBefore
  waiters := by
    have hBefore := h.waiters
    have hPosts : total (fun x => x.2.posts) (s.signals.eraseIdx i) + 0 =
        total (fun x => x.2.posts) s.signals := total_eraseIdx hSignal _
    show _ + total (fun x => x.2.posts) (s.signals.eraseIdx i) = _
    rw [show total (fun x => x.2.posts) (s.signals.eraseIdx i) = _ from hPosts]
    exact hBefore

theorem admits_elem {w : Fin n} {i c : Nat}
    (hAdmits : s.admits (.control (.dequeueElem w i)) = true)
    (hPc : (s.pool.workers w).pc = .waiting c) :
    ∃ k, s.waits w = some (.acquired k) ∧ c < k := by
  simp only [admits, hPc] at hAdmits
  split at hAdmits
  · next count k hCount hWait =>
    cases hCount
    exact ⟨k, hWait, of_decide_eq_true hAdmits⟩
  · cases hAdmits

theorem admits_return {w : Fin n} {c : Nat}
    (hAdmits : s.admits (.control (.dequeueReturn w)) = true)
    (hPc : (s.pool.workers w).pc = .waiting c) : s.waits w = some (.acquired c) := by
  simp only [admits, hPc] at hAdmits
  split at hAdmits
  · next count k hCount hWait =>
    cases hCount
    rw [hWait, of_decide_eq_true hAdmits]
  · cases hAdmits

/-- A step of the pool that ends the process leaves the semaphore alone. -/
theorem follow_of_abort {a : Action n τ} {pool : ParameterizedPool n τ}
    (hAbort : pool.abort ≠ none) : s.follow B timeout a pool = { s with pool := pool } :=
  if_pos (Option.isSome_iff_ne_none.mpr hAbort)

theorem follow_of_alive {pool : ParameterizedPool n τ} (hAbort : pool.abort = none) :
    (∀ w, s.follow B timeout (.control (.check w)) pool =
      if (pool.workers w).pc = .waiting 0 then
        { s with
          pool := pool
          waits := Function.update s.waits w (some (LightweightSemaphore.waitMany B timeout)) }
      else { s with pool := pool }) ∧
    (∀ w, s.follow B timeout (.control (.dequeueReturn w)) pool =
      { s with pool := pool, waits := Function.update s.waits w none }) ∧
    (∀ th token vs, s.follow B timeout (.enqueue th token vs) pool =
      { s with
        pool := pool
        signals := s.signals ++ [(th, LightweightSemaphore.signal vs.length)] }) := by
  have hNone : ¬ (pool.abort.isSome = true) := by simp [hAbort]
  exact ⟨fun _ => if_neg hNone, fun _ => if_neg hNone, fun _ _ _ => if_neg hNone⟩

/-- The steps with which calls into the semaphore begin and end. -/
def touches : Action n τ → Bool
  | .control (.check _) => true
  | .control (.dequeueReturn _) => true
  | .enqueue _ _ _ => true
  | _ => false

theorem follow_other {a : Action n τ} (pool : ParameterizedPool n τ) (hNot : touches a = false) :
    s.follow B timeout a pool = { s with pool := pool } := by
  unfold follow
  split
  · rfl
  · split
    · cases hNot
    · cases hNot
    · cases hNot
    · rfl

theorem Balanced.act (h : Balanced B timeout s) {a : Action n τ} {pool : ParameterizedPool n τ}
    (hFresh : s.pool.Fresh) (hAdmits : s.admits a = true)
    (hStep : s.pool.step B a = some pool) :
    Balanced B timeout (s.follow B timeout a pool) := by
  obtain ⟨hAlive, hCase⟩ := ParameterizedPool.step_cases hStep
  have hSame : ∀ w, (s.pool.workers w).pc = (s.pool.workers w).pc ∨
      (∀ c, (s.pool.workers w).pc ≠ .waiting c) ∧ ∀ c, (s.pool.workers w).pc ≠ .waiting c :=
    fun _ => .inl rfl
  -- only the steps of the dequeue and `enqueue` have to do with the semaphore
  cases hCase with
  | enter w hPc =>
    rw [(follow_of_alive (show (s.pool.setWorker w _ _).abort = none from hAlive)).1 w, if_pos]
    · exact h.enter hPc _ rfl _
    · rw [ParameterizedPool.setWorker_self]
  | exit w hPc =>
    rw [(follow_of_alive (show (s.pool.setWorker w _ _).abort = none from hAlive)).1 w, if_neg]
    · exact h.quiet (quiet_setWorker _ (fun _ hEq => by cases hEq) fun _ hEq => by
        rw [hPc] at hEq; cases hEq) rfl id
    · rw [ParameterizedPool.setWorker_self]
      exact fun hEq => by cases hEq
  | dequeueElem w i c e hPc hElem =>
    obtain ⟨k, hWait, hLt⟩ := admits_elem hAdmits hPc
    rw [follow_other _ rfl]
    exact h.dequeueElem hPc hWait hLt hElem _ rfl _
  | dequeueReturn w c hPc =>
    rw [(follow_of_alive (show (s.pool.setWorker w _ _).abort = none from hAlive)).2.1 w]
    exact h.dequeueReturn hPc (admits_return hAdmits hPc) _ rfl _
  | enqueue th token vs =>
    rw [(follow_of_alive (show (s.pool.enqueue _ vs).abort = none from hAlive)).2.2 th token vs]
    exact h.enqueue th _ vs
  | abort a r =>
    rw [follow_of_abort (by simp [ParameterizedPool.kill])]
    exact h.quiet hSame rfl id
  | spawn k hLt hLife =>
    rw [follow_other _ rfl]
    have hOld := (hFresh k hLife ⟨k, hLt⟩ le_rfl).1
    refine h.quiet ?_ rfl fun _ => by simp [hLife, Life.tasksAlive]
    refine quiet_setWorker [] (fun _ hEq => by cases hEq) fun _ hEq => ?_
    rw [hOld] at hEq
    cases hEq
  | invoke w i k e hPc | again w i k hPc | taskReturn w i k e hPc =>
    rw [follow_other _ rfl]
    exact h.quiet (quiet_setWorker _ (fun _ hEq => by cases hEq) fun _ hEq => by
      rw [hPc] at hEq; cases hEq) rfl id
  | teardownTasks c hLife =>
    rw [follow_other _ rfl]
    exact ⟨h.paired, h.signals, fun hTasks => by simp [Life.tasksAlive] at hTasks, h.waiters⟩
  | built k hLt hLife | spawnThrows k hLt hLife | destroy k hLife | teardownDone c hLife =>
    rw [follow_other _ rfl]
    exact h.quiet hSame rfl fun _ => by simp [hLife, Life.tasksAlive]
  | teardownThreads c hLife =>
    rw [follow_other _ rfl]
    exact h.quiet hSame rfl fun hTasks => by simp [Life.tasksAlive] at hTasks
  | joinThrows th i hLt hAwait | awaited th i hGe hAwait =>
    rw [follow_other _ rfl]
    refine h.quiet hSame rfl fun hTasks => ?_
    simp only [ParameterizedPool.leaveAwait] at hTasks
    split at hTasks
    · next hLife => simp [hLife, Life.tasksAlive]
    · exact hTasks
  | stop | await | joined =>
    rw [follow_other _ rfl]
    exact h.quiet hSame rfl id

-- ---------------------------------------------------------------------------
-- Every run
-- ---------------------------------------------------------------------------

/-- What a step of the whole is for the pool, in a state where the two fit. -/
theorem Move.pool {l : Label n τ} (hMove : Move p maxSpins B timeout s l s')
    (h : Balanced B timeout s) : (ParameterizedPool.system n B τ).Leads s.pool s'.pool := by
  cases hMove with
  | act a pool hAdmits hStep =>
    rw [follow_pool]
    exact .single hStep
  | wait | post | posted => exact .refl _
  | dangling w c pc hAbort hWait hLife =>
    -- a worker that waits on a queue that is gone is killed on its way back
    have hPaired := h.paired w
    rw [hWait] at hPaired
    obtain ⟨count, hPc⟩ : ∃ count, (s.pool.workers w).pc = .waiting count := by
      cases hPc : (s.pool.workers w).pc with
      | waiting count => exact ⟨count, rfl⟩
      | _ => rw [hPc] at hPaired; cases hPaired
    refine .single (a := .control (.dequeueReturn w)) ?_
    simp [ParameterizedPool.system, ParameterizedPool.step, hAbort, ParameterizedPool.control,
      ParameterizedPool.dequeueReturn, hPc, hLife]

theorem balanced_of_reachable (h : (system p maxSpins B timeout n τ).Reachable s) :
    Balanced B timeout s ∧ (ParameterizedPool.system n B τ).Reachable s.pool := by
  refine System.Reachable.induction
    (P := fun s => Balanced B timeout s ∧ (ParameterizedPool.system n B τ).Reachable s.pool)
    ⟨.init, .init⟩ ?_ h
  rintro s l s' - ⟨hBal, hPool⟩ hStep
  have hMove := step_cases hStep
  refine ⟨?_, hPool.leads (hMove.pool hBal)⟩
  cases hMove with
  | act a pool hAdmits hAct =>
    exact hBal.act (ParameterizedPool.fresh_of_reachable hPool) hAdmits hAct
  | wait w c pc pc' sema hAbort hWait hBusy hSema => exact hBal.wait hWait hBusy hSema
  | dangling w c pc => exact hBal.quiet (fun _ => .inl rfl) rfl id
  | post i c th pc pc' sema hSignal hSema => exact hBal.post hSignal hSema
  | posted i th hSignal => exact hBal.posted hSignal

/-- **The pool over the semaphore refines the pool.** Whatever a run of the
whole does to the pool is a run of the pool model, so what holds of every
reachable state and every continuation of the model holds of it. -/
theorem refines (h : (system p maxSpins B timeout n τ).Reachable s)
    (hLeads : (system p maxSpins B timeout n τ).Leads s s') :
    (ParameterizedPool.system n B τ).Leads s.pool s'.pool := by
  refine System.Leads.induction
    (P := fun t => (ParameterizedPool.system n B τ).Leads s.pool t.pool) (.refl _) ?_ hLeads
  intro t l u hTo hPool hStep
  exact hPool.trans ((step_cases hStep).pool (balanced_of_reachable (h.leads hTo)).1)

/-- Two workers, whose waits do not spin. -/
def twoWorkers : System (Blocking 2 Nat) (Label 2 Nat) := system .unix 0 2 (.timed 100) 2 Nat

/-- A client enqueues one task. -/
def enqueueOne : List (Label 2 Nat) :=
  List.replicate 3 (.act (.control .spawn)) ++
    [.act (.enqueue (.client 0) none [7]), .post 0 .run, .posted 0]

/-- One worker gets the permit for it, the other goes to sleep. -/
def waitBoth : List (Label 2 Nat) :=
  [.act (.control (.check Process.second)), .wait Process.second .run,
    .wait Process.second .run, .act (.control (.check Process.first))] ++
    List.replicate 3 (.wait Process.first .run)

def oneQueued : Blocking 2 Nat := (twoWorkers.run twoWorkers.init enqueueOne).get rfl

def oneOwed : Blocking 2 Nat := (twoWorkers.run twoWorkers.init (enqueueOne ++ waitBoth)).get rfl

theorem oneOwed_reachable : twoWorkers.Reachable oneOwed :=
  System.Reachable.get (enqueueOne ++ waitBoth) rfl

theorem refines_oneOwed :
    (ParameterizedPool.system 2 2 Nat).Leads oneQueued.pool oneOwed.pool :=
  refines (System.Reachable.get (M := twoWorkers) enqueueOne rfl) ⟨waitBoth, rfl⟩

-- ---------------------------------------------------------------------------
-- Tasks and permits
-- ---------------------------------------------------------------------------

/-- The elements worker `w` has permits for and has not dequeued yet. -/
def owed (s : Blocking n τ) (w : Fin n) : Nat :=
  ifSome LightweightSemaphore.Pc.granted (s.waits w) -
    dequeued (s.pool.workers w).pc

/-- The permits of all calls of `signal` in progress. -/
def pending (s : Blocking n τ) : Nat := total unpaid s.signals

theorem Paired.dequeued_le {pc : Pc} {wait : Option LightweightSemaphore.Pc}
    (h : Paired B timeout pc wait) :
    dequeued pc ≤ ifSome LightweightSemaphore.Pc.granted wait := by
  cases pc with
  | waiting count =>
    match wait with
    | none => exact h.elim
    | some wait =>
      cases wait with
      | acquired k => exact h.1
      | _ =>
        rw [show count = 0 from h.1]
        exact Nat.zero_le _
  | _ => exact Nat.zero_le _

/-- **Every queued task has a permit.** The counter, the kernel, the calls of
`signal` in progress or a worker on its way to the task has it. -/
theorem Balanced.tasks_eq (h : Balanced B timeout s)
    (hLife : s.pool.life.tasksAlive = true) :
    s.pool.tasks.length = s.sema.held + s.pending + ∑ w, s.owed w := by
  have hTasks := h.tasks hLife
  have hOwed : ∑ w, s.owed w + tally dequeued (fun w => (s.pool.workers w).pc) =
      tally (ifSome LightweightSemaphore.Pc.granted) s.waits := by
    unfold tally
    rw [← Finset.sum_add_distrib]
    exact Finset.sum_congr rfl fun w _ => Nat.sub_add_cancel (h.paired w).dequeued_le
  unfold pending
  omega

/-- The steps of worker `w` inside `wait_dequeue_bulk_timed`, and the wake-ups
that calls of `signal` have still to make. -/
def own (w : Fin n) (s : Blocking n τ) : Label n τ → Bool
  | .act (.control (.dequeueElem v _)) => v = w
  | .act (.control (.dequeueReturn v)) => v = w
  | .act _ => false
  | .wait v _ => v = w
  | .post i _ =>
    match s.signals[i]? with
    | some (_, .posting _) => true
    | _ => false
  | .posted _ => false

/-- The runs in which nobody but worker `w` and these wake-ups take steps. -/
def aloneSystem (p : Platform) (maxSpins B : Nat) (timeout : Wait) (w : Fin n) (τ : Type) :
    System (Blocking n τ) (Label n τ) :=
  (system p maxSpins B timeout n τ).restrict (own w)

/-- The rest of `wait_dequeue_bulk_timed`, once `waitMany` has returned `k`. -/
theorem dequeue_returns {w : Fin n} {c k : Nat}
    (h : (system p maxSpins B timeout n τ).Reachable s) (hAbort : s.pool.abort = none)
    (hLife : s.pool.life.tasksAlive = true) (hPc : (s.pool.workers w).pc = .waiting c)
    (hWait : s.waits w = some (.acquired k)) :
    ∃ s', (aloneSystem p maxSpins B timeout w τ).Leads s s' ∧
      (s'.pool.workers w).pc = .looping 0 k ∧
      ∀ v, v ≠ w → s'.pool.workers v = s.pool.workers v ∧ s'.waits v = s.waits v := by
  have hBal := (balanced_of_reachable h).1
  obtain ⟨hLe, hBound⟩ : c ≤ k ∧ k ≤ B := by
    have hPaired := hBal.paired w
    rwa [hPc, hWait] at hPaired
  induction hLeft : k - c generalizing s c with
  | zero =>
    obtain rfl : c = k := by omega
    have hStep : (aloneSystem p maxSpins B timeout w τ).step s
        (.act (.control (.dequeueReturn w))) = some
        { s with
          pool := s.pool.setWorker w ⟨.looping 0 c, (s.pool.workers w).runnable⟩ [.dequeued c]
          waits := Function.update s.waits w none } := by
      refine System.restrict_step.mpr ⟨by simp [own], ?_⟩
      simp [system, step, admits, hPc, hWait, ParameterizedPool.step, hAbort,
        ParameterizedPool.control, ParameterizedPool.dequeueReturn, hLife, follow,
        ParameterizedPool.setWorker]
    refine ⟨_, .single hStep, ?_, ?_⟩
    · show ((s.pool.setWorker w _ _).workers w).pc = _
      rw [ParameterizedPool.setWorker_self]
    · intro v hv
      exact ⟨ParameterizedPool.setWorker_of_ne hv .., Function.update_of_ne hv ..⟩
  | succ left ih =>
    -- there is a permit left, so there is a task left
    have hOwed : 0 < s.owed w := by
      unfold owed
      rw [hWait, hPc]
      show 0 < k - c
      omega
    have hTasks := hBal.tasks_eq hLife
    have hOne : s.owed w ≤ ∑ v, s.owed v :=
      Finset.single_le_sum (f := s.owed) (fun _ _ => Nat.zero_le _) (Finset.mem_univ w)
    obtain ⟨e, rest, hElem⟩ := List.exists_cons_of_length_pos (l := s.pool.tasks) (by omega)
    let t : Blocking n τ := { s with
      pool := { s.pool.setWorker w
        ⟨.waiting (c + 1), (s.pool.workers w).runnable.set c (some e)⟩ [.take e.id] with
        tasks := s.pool.tasks.eraseIdx 0 } }
    have hStep : (aloneSystem p maxSpins B timeout w τ).step s
        (.act (.control (.dequeueElem w 0))) = some t := by
      have hLt : c < k := by omega
      have hRoom : c < B := by omega
      refine System.restrict_step.mpr ⟨by simp [own], ?_⟩
      simp [system, step, admits, hPc, hWait, ParameterizedPool.step, hAbort,
        ParameterizedPool.control, ParameterizedPool.dequeueElem, hLife, hElem, hLt, hRoom, follow,
        t]
    have hPc' : (t.pool.workers w).pc = .waiting (c + 1) := by
      show ((s.pool.setWorker w _ []).workers w).pc = _
      rw [ParameterizedPool.setWorker_self]
    have hNext : (system p maxSpins B timeout n τ).Reachable t :=
      h.step (System.restrict_step.mp hStep).2
    obtain ⟨u, hLeads, hLoop, hOthers⟩ := ih hNext hAbort hLife hPc' hWait
      (balanced_of_reachable hNext).1 (by omega) (by omega)
    refine ⟨u, (System.Leads.single hStep).trans hLeads, hLoop, ?_⟩
    intro v hv
    rw [(hOthers v hv).1, (hOthers v hv).2]
    exact ⟨ParameterizedPool.setWorker_of_ne hv _ [], rfl⟩

/-- **Permits are paid in tasks.** While `tasks_` exists, the workers that have
come out of `waitMany` find at least as many tasks as they still have permits
for, all of them together, and each can dequeue all of its own and return: the
loop around `try_dequeue_bulk` never turns on an empty queue for good. -/
theorem paid_for (h : (system p maxSpins B timeout n τ).Reachable s)
    (hAbort : s.pool.abort = none) (hLife : s.pool.life.tasksAlive = true) :
    ∑ w, s.owed w ≤ s.pool.tasks.length ∧
      ∀ w c k, (s.pool.workers w).pc = .waiting c → s.waits w = some (.acquired k) →
        ∃ s', (system p maxSpins B timeout n τ).Leads s s' ∧
          (s'.pool.workers w).pc = .looping 0 k ∧
          ∀ v, v ≠ w → s'.pool.workers v = s.pool.workers v := by
  have hTasks := (balanced_of_reachable h).1.tasks_eq hLife
  refine ⟨by omega, ?_⟩
  intro w c k hPc hWait
  obtain ⟨s', hLeads, hLoop, hOthers⟩ := dequeue_returns h hAbort hLife hPc hWait
  exact ⟨s', hLeads.of_restrict, hLoop, fun v hv => (hOthers v hv).1⟩

theorem paid_for_oneOwed :
    ∃ s', twoWorkers.Leads oneOwed s' ∧
      (s'.pool.workers Process.second).pc = .looping 0 1 ∧
      ∀ v, v ≠ Process.second → s'.pool.workers v = oneOwed.pool.workers v :=
  (paid_for oneOwed_reachable rfl rfl).2 Process.second 0 1 rfl rfl

/-- **No worker sleeps next to a task.** While a worker sleeps in `waitMany`
and nothing is under way to wake it (the kernel semaphore is empty and every
`signal` has done its work), each queued task is one that another worker has
the permit for already. -/
theorem no_task_left (h : (system p maxSpins B timeout n τ).Reachable s)
    (hLife : s.pool.life.tasksAlive = true) {w : Fin n} {t : Wait} {max : Nat}
    (hSleeps : s.waits w = some (.sleeping t max)) (hSema : s.sema.sema = 0)
    (hSignals : s.pending = 0) :
    s.pool.tasks.length = ∑ v, s.owed v ∧ s.owed w = 0 := by
  have hBal := (balanced_of_reachable h).1
  have hTasks := hBal.tasks_eq hLife
  have hWaiters := hBal.waiters
  have hOne := le_tally (ifSome LightweightSemaphore.Pc.waits) s.waits w
  have hPosts : total (fun x => x.2.posts) s.signals ≤ s.pending := by
    unfold pending unpaid
    induction s.signals with
    | nil => exact Nat.le_refl 0
    | cons x l ih =>
      rw [total_cons, total_cons]
      omega
  rw [hSleeps] at hOne
  replace hOne : 1 ≤ tally (ifSome LightweightSemaphore.Pc.waits) s.waits :=
    hOne
  unfold LightweightSemaphore.held at hTasks
  unfold LightweightSemaphore.debt at hWaiters
  refine ⟨by omega, ?_⟩
  unfold owed
  rw [hSleeps]
  exact Nat.zero_sub _

theorem no_task_left_oneOwed :
    oneOwed.pool.tasks.length = ∑ v, oneOwed.owed v ∧ oneOwed.owed Process.first = 0 :=
  no_task_left oneOwed_reachable rfl
    (show oneOwed.waits Process.first = some (.sleeping (.timed 100) 2) from rfl) rfl rfl

/-- **`size_approx`.** It never counts a task that is not queued, and is exact
whenever no `enqueue` and no dequeue is in progress. -/
theorem size_bounded (h : (system p maxSpins B timeout n τ).Reachable s)
    (hLife : s.pool.life.tasksAlive = true) :
    s.sizeApprox ≤ s.pool.tasks.length ∧
      (s.signals = [] → (∀ w, s.waits w = none) → s.sizeApprox = s.pool.tasks.length) := by
  have hBal := (balanced_of_reachable h).1
  have hTasks := hBal.tasks_eq hLife
  unfold LightweightSemaphore.held at hTasks
  unfold sizeApprox LightweightSemaphore.availableApprox
  refine ⟨by omega, ?_⟩
  intro hSignals hWaits
  have hOwed : ∑ w, s.owed w = 0 := Finset.sum_eq_zero fun w _ => by
    unfold owed
    rw [hWaits w]
    exact Nat.zero_sub _
  have hWaiters := hBal.waiters
  rw [hSignals, tally_eq_zero fun w => by rw [hWaits w]; rfl] at hWaiters
  have hPending : s.pending = 0 := by rw [pending, hSignals, total_nil]
  rw [total_nil] at hWaiters
  omega

theorem size_bounded_oneQueued : oneQueued.sizeApprox = 1 :=
  (size_bounded (System.Reachable.get (M := twoWorkers) enqueueOne rfl) rfl).2 rfl fun _ => rfl

-- ---------------------------------------------------------------------------
-- A wait with a timeout comes back
-- ---------------------------------------------------------------------------

/-- The wake-ups under way reach the kernel. -/
theorem drain (p : Platform) (maxSpins B : Nat) (timeout : Wait) (w : Fin n)
    (hAbort : s.pool.abort = none) (hLife : s.pool.life.tasksAlive = true) :
    ∃ s', (aloneSystem p maxSpins B timeout w τ).Leads s s' ∧
      total (fun x => x.2.posts) s'.signals = 0 ∧ s'.pool = s.pool ∧ s'.waits = s.waits := by
  induction hPosts : total (fun x => x.2.posts) s.signals using Nat.strongRecOn generalizing s with
  | ind m ih =>
    by_cases hZero : m = 0
    · exact ⟨s, .refl s, hPosts.trans hZero, rfl, rfl⟩
    · obtain ⟨i, ⟨th, pc⟩, hSignal, hPos⟩ := exists_of_total_pos
        (show 0 < total (fun x => x.2.posts) s.signals by omega)
      obtain ⟨left, rfl⟩ : ∃ left, pc = .posting left := by
        cases pc with
        | posting left => exact ⟨left, rfl⟩
        | _ => cases hPos
      replace hPos : 0 < left := hPos
      have hSome := LightweightSemaphore.portion_pos (p := p) hPos
      let t : Blocking n τ := { s with
        sema := { s.sema with sema := s.sema.sema + LightweightSemaphore.portion p left }
        signals := s.signals.set i
          (th, .posting (left - LightweightSemaphore.portion p left)) }
      have hStep : (aloneSystem p maxSpins B timeout w τ).step s (.post i .run) = some t := by
        refine System.restrict_step.mpr ⟨by simp [own, hSignal], ?_⟩
        simp [system, step, hSignal, hAbort, hLife, LightweightSemaphore.step,
          Nat.ne_of_gt hPos, t]
      have hFewer : total (fun x => x.2.posts) t.signals + left =
          total (fun x => x.2.posts) s.signals +
            (left - LightweightSemaphore.portion p left) :=
        total_set hSignal (fun x : Thread n × LightweightSemaphore.Pc => x.2.posts) _
      obtain ⟨u, hLeads, hNone, hPool, hWaits⟩ := ih (total (fun x => x.2.posts) t.signals)
        (by omega) (s := t) hAbort hLife rfl
      exact ⟨u, (System.Leads.single hStep).trans hLeads, hNone, hPool, hWaits⟩

/-- Worker `w` runs its call of `waitMany` to the end. -/
theorem acquires_of_ends (B : Nat) (timeout : Wait) {w : Fin n} {sema : LightweightSemaphore}
    {pc : LightweightSemaphore.Pc} (hEnds : LightweightSemaphore.Ends p maxSpins sema pc)
    (hSema : s.sema = sema) (hWait : s.waits w = some pc) (hAbort : s.pool.abort = none)
    (hLife : s.pool.life.tasksAlive = true) :
    ∃ s' pc' k, (aloneSystem p maxSpins B timeout w τ).Leads s s' ∧ s'.pool = s.pool ∧
      s'.waits w = some pc' ∧ pc'.result = some k ∧ ∀ v, v ≠ w → s'.waits v = s.waits v := by
  induction hEnds generalizing s with
  | @here sema pc k hResult => exact ⟨s, pc, k, .refl s, rfl, hWait, hResult, fun _ _ => rfl⟩
  | @next sema pc c sema' pc' hStep _ ih =>
    by_cases hBusy : pc.result = none
    · let t : Blocking n τ := { s with
        sema := sema', waits := Function.update s.waits w (some pc') }
      have hMove : (aloneSystem p maxSpins B timeout w τ).step s (.wait w c) = some t := by
        refine System.restrict_step.mpr ⟨by simp [own], ?_⟩
        simp [system, step, hWait, hAbort, hBusy, hLife, hSema, hStep, t]
      obtain ⟨u, pc'', k, hLeads, hPool, hEnd, hResult, hOthers⟩ :=
        ih (s := t) rfl (Function.update_self ..) hAbort hLife
      refine ⟨u, pc'', k, (System.Leads.single hMove).trans hLeads, hPool, hEnd, hResult, ?_⟩
      intro v hv
      rw [hOthers v hv]
      exact Function.update_of_ne hv ..
    · obtain ⟨k, hResult⟩ := Option.ne_none_iff_exists'.mp hBusy
      exact ⟨s, pc, k, .refl s, rfl, hWait, hResult, fun _ _ => rfl⟩

/-- **A wait with a timeout comes back.** While `tasks_` exists, a worker in
`wait_dequeue_bulk_timed` with a timeout that is not negative can always be
brought back to its loop by its own steps and the wake-ups under way alone,
whatever the others are in the middle of, and they stay where they are. -/
theorem wait_returns (h : (system p maxSpins B timeout n τ).Reachable s)
    (hAbort : s.pool.abort = none) (hLife : s.pool.life.tasksAlive = true)
    (hTimed : timeout ≠ .indefinite) {w : Fin n} {c : Nat}
    (hPc : (s.pool.workers w).pc = .waiting c) :
    ∃ s' k, (aloneSystem p maxSpins B timeout w τ).Leads s s' ∧
      (s'.pool.workers w).pc = .looping 0 k ∧ k ≤ B ∧
      ∀ v, v ≠ w → s'.pool.workers v = s.pool.workers v ∧ s'.waits v = s.waits v := by
  obtain ⟨t, hDrain, hPosts, hPool, hWaits⟩ :=
    drain p maxSpins B timeout w hAbort hLife
  have hBal := (balanced_of_reachable (h.leads hDrain.of_restrict)).1
  have hPaired := hBal.paired w
  rw [hPool, hPc] at hPaired
  obtain ⟨pc, hWait⟩ : ∃ pc, t.waits w = some pc := by
    cases hWait : t.waits w with
    | none => rw [hWait] at hPaired; exact hPaired.elim
    | some pc => exact ⟨pc, rfl⟩
  rw [hWait] at hPaired
  have hEnds : LightweightSemaphore.Ends p maxSpins t.sema pc := by
    by_cases hBusy : pc.result = none
    · refine (hPaired.waiting hBusy).2.ends ?_ (.inl ?_)
      · intro hOne
        have hWaiters := hBal.waiters
        have hLe := le_tally (ifSome LightweightSemaphore.Pc.waits) t.waits w
        rw [hWait] at hLe
        replace hLe : pc.waits ≤ _ := hLe
        unfold LightweightSemaphore.debt at hWaiters
        omega
      · rintro m ⟨⟩
        exact hTimed rfl
    · obtain ⟨k, hResult⟩ := Option.ne_none_iff_exists'.mp hBusy
      exact .here hResult
  obtain ⟨u, pc', k, hAcquire, hSame, hEnd, hResult, hStill⟩ :=
    acquires_of_ends B timeout hEnds rfl hWait (by rw [hPool]; exact hAbort)
      (by rw [hPool]; exact hLife)
  have hReach := (h.leads hDrain.of_restrict).leads hAcquire.of_restrict
  have hPc' : (u.pool.workers w).pc = .waiting c := by rw [hSame, hPool, hPc]
  have hPaired' := (balanced_of_reachable hReach).1.paired w
  rw [hPc', hEnd] at hPaired'
  obtain ⟨rfl, hBound⟩ : pc' = .acquired k ∧ k ≤ B := by
    cases pc' with
    | acquired j => cases hResult; exact ⟨rfl, hPaired'.2⟩
    | signalled => exact hPaired'.2.elim
    | _ => cases hResult
  obtain ⟨v, hReturn, hLoop, hOthers⟩ := dequeue_returns hReach (by rw [hSame, hPool]; exact hAbort)
    (by rw [hSame, hPool]; exact hLife) hPc' hEnd
  refine ⟨v, k, (hDrain.trans hAcquire).trans hReturn, hLoop, hBound, ?_⟩
  intro x hx
  obtain ⟨hWorker, hOwnWait⟩ := hOthers x hx
  exact ⟨by rw [hWorker, hSame, hPool], by rw [hOwnWait, hStill x hx, hWaits]⟩

theorem wait_returns_oneOwed :
    ∃ s' k, (aloneSystem .unix 0 2 (.timed 100) Process.first Nat).Leads oneOwed s' ∧
      (s'.pool.workers Process.first).pc = .looping 0 k ∧ k ≤ 2 ∧
      ∀ v, v ≠ Process.first →
        s'.pool.workers v = oneOwed.pool.workers v ∧ s'.waits v = oneOwed.waits v :=
  wait_returns oneOwed_reachable rfl rfl nofun (w := Process.first) (c := 0) rfl

end Blocking

end ThreadPool.Model
