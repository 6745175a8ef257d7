import ThreadPool.Model.Dispatch

/-!
# ThreadPool — the life of a pool

From the constructor through `stop` and `await` to the destruction of the
members: the facts about `threads_`, `done_` and the `await()` in progress
that hold in every reachable state.

* `unbuilt` — before the constructor returns nobody can call the pool, so
  nothing is accepted and nothing is invoked;
* `present` — once it has returned every entry of `threads_` exists;
* `joined_exited` — a joined thread has left `worker()`;
* `awaited_exited` — after an `await()` that returned normally every worker
  has left `worker()`, for good.
-/

namespace ThreadPool.Model

open ThreadPool.Lib

variable {n : Nat} {τ : Type}

/-- The constructor has not returned, or has thrown. -/
def Life.fromCtor : Life → Bool
  | .constructing _ => true
  | .teardown .ctor _ => true
  | .gone .ctor => true
  | _ => false

/-- `done_` is declared after `tasks_`, so it is destroyed first. -/
theorem Life.tasksAlive_of_doneAlive {life : Life} (hDone : life.doneAlive = true) :
    life.tasksAlive = true := by
  cases life with
  | teardown c m => cases m <;> simp_all [Life.doneAlive, Life.tasksAlive]
  | _ => simp_all [Life.doneAlive, Life.tasksAlive]

/-- A worker that has left the loop does not move. -/
theorem Move.of_exited {B : Nat} {s : ParameterizedPool n τ} {x y : Worker n τ}
    {evs : List WorkerEvent} (hMove : Move B s x y evs) (hPc : x.pc = .exited) :
    y = x ∧ evs = [] := by
  cases hMove with
  | rest => exact ⟨rfl, rfl⟩
  | _ => simp_all

namespace ParameterizedPool

variable {B : Nat} {s s' : ParameterizedPool n τ}

-- ---------------------------------------------------------------------------
-- What every step keeps
-- ---------------------------------------------------------------------------

/-- The history only grows. -/
theorem Step.grows {a : Action n τ} (hStep : Step B s a s') :
    ∃ new, s'.hist = s.hist ++ new := by
  cases hStep with
  | exit | enter | dequeueElem | dequeueReturn | invoke | again | taskReturn => exact ⟨_, rfl⟩
  | await | joinThrows | awaited | destroy => exact ⟨_, rfl⟩
  | _ => exact ⟨[], (List.append_nil _).symm⟩

/-- The flag is never cleared. -/
theorem Step.done_mono {a : Action n τ} (hStep : Step B s a s') (hDone : s.done = true) :
    s'.done = true := by
  cases hStep with
  | stop | destroy => rfl
  | _ => exact hDone

/-- A worker that has left `worker()` stays away and records nothing. -/
theorem Step.exited {a : Action n τ} (hStep : Step B s a s') (hFresh : s.Fresh) {w : Fin n}
    (hPc : (s.workers w).pc = .exited) :
    s'.workers w = s.workers w ∧ own w s'.hist = own w s.hist := by
  obtain ⟨evs, hOwn, hMove⟩ := hStep.move hFresh w
  obtain ⟨hWorker, rfl⟩ := hMove.of_exited hPc
  exact ⟨hWorker, by rw [hOwn, List.append_nil]⟩

/-- Only a step that ends the process sets `abort`. -/
theorem Step.abort_eq {a : Action n τ} (hStep : Step B s a s') (hNone : s.abort = none) :
    s'.abort = none ∨ ∃ r, AbortCause s a r ∧ s' = s.kill r := by
  cases hStep with
  | abort _ r hCause => exact .inr ⟨r, hCause, rfl⟩
  | _ => exact .inl hNone

-- ---------------------------------------------------------------------------
-- Who can call
-- ---------------------------------------------------------------------------

theorem mayCall_client {k : Nat} (h : s.mayCall (.client k) = true) : s.life = .alive := by
  simp only [mayCall, Bool.and_eq_true, decide_eq_true_eq] at h
  exact h.2

theorem mayCall_worker {w : Fin n} (h : s.mayCall (.worker w) = true) :
    s.life.doneAlive = true ∧ ∃ i k, (s.workers w).pc = .invoking i k := by
  simp only [mayCall, Bool.and_eq_true] at h
  refine ⟨h.2.1, ?_⟩
  have hPc := h.2.2
  split at hPc
  · next i k hEq => exact ⟨i, k, hEq⟩
  · simp at hPc

/-- A worker inside a task took that task from the queue. -/
theorem accepted_of_invoking (h : (system n B τ).Reachable s) {w : Fin n} {i k : Nat}
    (hPc : (s.workers w).pc = .invoking i k) : s.accepted ≠ [] := by
  obtain ⟨e, hSlot⟩ := (worker_ok h w).shape.slot_of_invoking hPc
  have hCur := current_of_invoking hPc hSlot
  have hLt := located_lt h (p := .invoked w) ⟨_, hCur, rfl⟩
  intro hNil
  rw [hNil] at hLt
  exact absurd hLt (Nat.not_lt_zero _)

/-- Once the queue is destroyed it stays empty: nobody can call any more. -/
theorem tasks_nil (h : (system n B τ).Reachable s) (hLife : s.life.tasksAlive = false) :
    s.tasks = [] := by
  refine System.Reachable.induction
    (P := fun s : ParameterizedPool n τ => s.life.tasksAlive = false → s.tasks = [])
    (fun hInit => by simp [system, init, Life.tasksAlive] at hInit) ?_ h hLife
  intro s a s' _ hOld hStep hGone
  cases (step_cases hStep).2 with
  | teardownTasks => rfl
  | spawn | built | spawnThrows | destroy | teardownDone => simp [Life.tasksAlive] at hGone
  | teardownThreads c hLife' => exact hOld (by simp [hLife', Life.tasksAlive])
  | joinThrows | awaited =>
    refine hOld ?_
    simp only [leaveAwait] at hGone
    split at hGone
    · simp [Life.tasksAlive] at hGone
    · exact hGone
  | dequeueElem w i c e hPc hElem => simp [hOld hGone] at hElem
  | enqueue th token vs hCall =>
    -- a caller needs `done_`, which is destroyed before the queue is
    cases th with
    | client k => simp [enqueue, mayCall_client hCall, Life.tasksAlive] at hGone
    | worker w =>
      have hQueue := Life.tasksAlive_of_doneAlive (mayCall_worker hCall).1
      rw [enqueue, hQueue] at hGone
      cases hGone
  | _ => exact hOld hGone

-- ---------------------------------------------------------------------------
-- Construction
-- ---------------------------------------------------------------------------

/-- Before the constructor returns nothing is accepted, nobody awaits and
the flag is clear. -/
structure Unbuilt (s : ParameterizedPool n τ) : Prop where
  accepted : s.accepted = []
  awaiting : s.awaiting = none
  done : s.done = false

/-- Nobody can call a pool that is not built: a client has no object yet,
and a worker would need a task. -/
theorem not_mayCall (h : (system n B τ).Reachable s) (hLife : s.life.fromCtor = true)
    (hAccepted : s.accepted = []) (th : Thread n) : s.mayCall th = false := by
  rw [Bool.eq_false_iff]
  intro hCall
  cases th with
  | client k =>
    rw [mayCall_client hCall] at hLife
    simp [Life.fromCtor] at hLife
  | worker w =>
    obtain ⟨-, i, k, hPc⟩ := mayCall_worker hCall
    exact accepted_of_invoking h hPc hAccepted

/-- The constructor is never entered again. -/
theorem Step.fromCtor_of {a : Action n τ} (hStep : Step B s a s')
    (hLife : s'.life.fromCtor = true) : s.life.fromCtor = true := by
  cases hStep with
  | spawn k _ hOld | spawnThrows k _ hOld => simp [hOld, Life.fromCtor]
  | built | destroy => simp [Life.fromCtor] at hLife
  | joinThrows | awaited =>
    -- an `await()` that ends leads into the teardown of the destructor, or nowhere
    simp only [leaveAwait] at hLife
    split at hLife
    · simp [Life.fromCtor] at hLife
    · exact hLife
  | teardownDone c hOld | teardownTasks c hOld | teardownThreads c hOld =>
    cases c <;> simp_all [Life.fromCtor]
  | _ => exact hLife

theorem unbuilt (h : (system n B τ).Reachable s) (hLife : s.life.fromCtor = true) :
    s.Unbuilt := by
  refine System.Reachable.induction
    (P := fun s : ParameterizedPool n τ => s.life.fromCtor = true → s.Unbuilt)
    (fun _ => ⟨rfl, rfl, rfl⟩) ?_ h hLife
  intro s a s' hReach hOld hStep hLife
  have hCases := (step_cases hStep).2
  have hPrev := hOld (hCases.fromCtor_of hLife)
  have hSilent : ∀ {th}, s.mayCall th = true → False := by
    intro th hCall
    rw [not_mayCall hReach (hCases.fromCtor_of hLife) hPrev.accepted th] at hCall
    cases hCall
  cases hCases with
  | stop th hCall | await th hCall | enqueue th token vs hCall => exact (hSilent hCall).elim
  | joined _ _ _ hAwait | joinThrows _ _ _ hAwait | awaited _ _ _ hAwait =>
    rw [hPrev.awaiting] at hAwait
    cases hAwait
  | destroy => simp [Life.fromCtor] at hLife
  | _ => exact ⟨hPrev.accepted, hPrev.awaiting, hPrev.done⟩

/-- The threads created so far exist: the first `k` during construction, all
of them once the constructor has returned. -/
def Present (s : ParameterizedPool n τ) : Prop :=
  (∀ k, s.life = .constructing k → ∀ w : Fin n, w.val < k → s.threads w ≠ .absent) ∧
    (s.life.fromCtor = false → ∀ w, s.threads w ≠ .absent)

theorem Present.of_same (h : s.Present) (hLife : s'.life = s.life)
    (hThreads : ∀ w, s.threads w ≠ .absent → s'.threads w ≠ .absent) : s'.Present :=
  ⟨fun k hk w hw => hThreads w (h.1 k (hLife ▸ hk) w hw),
    fun hCtor w => hThreads w (h.2 (hLife ▸ hCtor) w)⟩

/-- A phase after the constructor follows another one. -/
private theorem Present.later (h : s.Present) (hThreads : s'.threads = s.threads)
    (hNot : ∀ k, s'.life ≠ .constructing k)
    (hFrom : s'.life.fromCtor = false → s.life.fromCtor = false) : s'.Present :=
  ⟨fun k hk => absurd hk (hNot k), fun hCtor w => hThreads ▸ h.2 (hFrom hCtor) w⟩

theorem Step.present {a : Action n τ} (hStep : Step B s a s') (h : s.Present) : s'.Present := by
  cases hStep with
  | spawn k hLt hLife =>
    refine ⟨fun k' hk' w hw => ?_, fun hCtor => by simp [Life.fromCtor] at hCtor⟩
    -- the new entry is joinable, the ones before it exist already
    simp only [Life.constructing.injEq] at hk'
    by_cases hEq : w = ⟨k, hLt⟩
    · simp [hEq]
    · have hNe : w.val ≠ k := fun hVal => hEq (Fin.ext hVal)
      simpa [Function.update_of_ne hEq] using h.1 k hLife w (by omega)
  | built k hGe hLife =>
    exact ⟨fun k' hk' => by simp at hk', fun _ w => h.1 k hLife w (by omega)⟩
  | spawnThrows => exact h.later rfl (by simp) (by simp [Life.fromCtor])
  | destroy k hLife => exact h.later rfl (by simp) (by simp [hLife, Life.fromCtor])
  | teardownDone c hLife | teardownTasks c hLife | teardownThreads c hLife =>
    exact h.later rfl (by simp) (by cases c <;> simp [hLife, Life.fromCtor])
  | joined th i hLt =>
    refine h.of_same rfl fun w hw => ?_
    by_cases hEq : w = ⟨i, hLt⟩
    · simp [hEq]
    · simpa [Function.update_of_ne hEq] using hw
  | joinThrows | awaited =>
    by_cases hLife : s.life = .destructing
    · exact h.later rfl (by simp [leaveAwait, hLife]) (by simp [hLife, Life.fromCtor])
    · exact h.of_same (by simp [leaveAwait, hLife]) fun _ hw => hw
  | _ => exact h.of_same rfl fun _ hw => hw

theorem present (h : (system n B τ).Reachable s) : s.Present :=
  System.Reachable.induction (P := Present)
    ⟨fun k hk w hw => by cases hk; omega,
      fun hCtor => by simp [system, init, Life.fromCtor] at hCtor⟩
    (fun _ _ _ _ hOld hStep => (step_cases hStep).2.present hOld) h

/-- Who awaits does so on a built pool, so every thread exists. -/
theorem present_of_awaiting (h : (system n B τ).Reachable s) {a : Thread n × Nat}
    (hAwait : s.awaiting = some a) (w : Fin n) : s.threads w ≠ .absent := by
  refine (present h).2 ?_ w
  rw [Bool.eq_false_iff]
  intro hCtor
  rw [(unbuilt h hCtor).awaiting] at hAwait
  simp at hAwait

/-- A worker that awaits does so inside a call. -/
theorem awaiting_invoking (h : (system n B τ).Reachable s) {w : Fin n} {j : Nat}
    (hAwait : s.awaiting = some (.worker w, j)) : ∃ i k, (s.workers w).pc = .invoking i k := by
  refine System.Reachable.induction (P := fun s : ParameterizedPool n τ =>
    ∀ j, s.awaiting = some (.worker w, j) → ∃ i k, (s.workers w).pc = .invoking i k)
    (fun j hNone => by simp [system, init] at hNone) ?_ h j hAwait
  intro s a s' hReach hOld hStep j hAwait'
  -- a move of another worker, or one of `w` that does not start inside a call
  have hSet : ∀ (v : Fin n) (x : Worker n τ), s.awaiting = some (.worker w, j) →
      (v = w → ∀ i k, (s.workers v).pc ≠ .invoking i k) →
      ∃ i k, (Function.update s.workers v x w).pc = .invoking i k := by
    intro v x hSame hOut
    obtain ⟨i, k, hPc⟩ := hOld j hSame
    have hNe : v ≠ w := fun hEq => hOut hEq i k (hEq ▸ hPc)
    exact ⟨i, k, by rwa [Function.update_of_ne (Ne.symm hNe)]⟩
  cases (step_cases hStep).2 with
  | exit v hPc | enter v hPc | dequeueElem v _ _ _ hPc | dequeueReturn v _ hPc
  | invoke v _ _ _ hPc | again v _ _ hPc => exact hSet v _ hAwait' (by simp [hPc])
  | spawn k hLt hLife =>
    refine hSet ⟨k, hLt⟩ _ hAwait' fun _ i k' => ?_
    simp [((fresh_of_reachable hReach) k hLife ⟨k, hLt⟩ le_rfl).1]
  | taskReturn v i k e hPc hSlot hFree =>
    refine hSet v _ hAwait' fun hEq => ?_
    subst hEq
    exact absurd hAwait' (hFree j)
  | await th hCall =>
    simp only [Option.some.injEq, Prod.mk.injEq] at hAwait'
    obtain ⟨rfl, -⟩ := hAwait'
    exact (mayCall_worker hCall).2
  | joined th i hLt hOldAwait =>
    simp only [Option.some.injEq, Prod.mk.injEq] at hAwait'
    obtain ⟨rfl, -⟩ := hAwait'
    exact hOld i hOldAwait
  | joinThrows | awaited => simp [leaveAwait] at hAwait'
  | destroy => simp at hAwait'
  | _ => exact hOld j hAwait'

-- ---------------------------------------------------------------------------
-- Joining
-- ---------------------------------------------------------------------------

/-- What has been joined has exited; the `await()` in progress has joined
everything before its index; one that returned has joined everything. -/
structure Joins (s : ParameterizedPool n τ) : Prop where
  exited : ∀ w, s.threads w = .joined → (s.workers w).pc = .exited
  before : ∀ th i, s.awaiting = some (th, i) → ∀ w : Fin n, w.val < i → s.threads w = .joined
  after : ∀ th, .awaited th ∈ s.hist → ∀ w, s.threads w = .joined

/-- A step of the worker loop keeps what is known about joins. -/
private theorem Joins.setWorker (h : s.Joins) {w : Fin n} {x : Worker n τ}
    {evs : List WorkerEvent} (hPc : (s.workers w).pc ≠ .exited) : (s.setWorker w x evs).Joins where
  exited v hv := by
    have hNe : v ≠ w := by
      rintro rfl
      exact hPc (h.exited v hv)
    rw [setWorker_of_ne hNe]
    exact h.exited v hv
  before := h.before
  after th hMem := by
    refine h.after th ?_
    simpa [ParameterizedPool.setWorker] using hMem

/-- So does a step that touches neither the threads nor the workers. -/
private theorem Joins.of_same (h : s.Joins) (hThreads : s'.threads = s.threads)
    (hWorkers : s'.workers = s.workers)
    (hAwait : ∀ th i, s'.awaiting = some (th, i) → i = 0 ∨ s.awaiting = some (th, i))
    (hHist : ∀ th, .awaited th ∈ s'.hist → .awaited th ∈ s.hist) : s'.Joins where
  exited w hw := by
    rw [hWorkers]
    exact h.exited w (hThreads ▸ hw)
  before th i hi w hw := by
    rw [hThreads]
    rcases hAwait th i hi with hZero | hOld
    · omega
    · exact h.before th i hOld w hw
  after th hMem w := by
    rw [hThreads]
    exact h.after th (hHist th hMem) w

theorem Step.joins {a : Action n τ} (hStep : Step B s a s') (hFresh : s.Fresh) (h : s.Joins) :
    s'.Joins := by
  cases hStep with
  | exit w hPc | enter w hPc | dequeueReturn w _ hPc | invoke w _ _ _ hPc | again w _ _ hPc
  | taskReturn w _ _ _ hPc => exact h.setWorker (by simp [hPc])
  | dequeueElem w i c e hPc =>
    have hSet : (s.setWorker w ⟨.waiting (c + 1), (s.workers w).runnable.set c (some e)⟩
        [.take e.id]).Joins := h.setWorker (by simp [hPc])
    exact ⟨hSet.exited, hSet.before, hSet.after⟩
  | spawn k hLt hLife =>
    -- a thread that is created now is joinable, and was not joined before
    have hNot : ∀ w, Function.update s.threads ⟨k, hLt⟩ ThreadState.joinable w = .joined →
        w ≠ ⟨k, hLt⟩ ∧ s.threads w = .joined := by
      intro w hw
      by_cases hEq : w = ⟨k, hLt⟩
      · simp [hEq] at hw
      · exact ⟨hEq, by simpa [Function.update_of_ne hEq] using hw⟩
    have hAbsent := (hFresh k hLife ⟨k, hLt⟩ le_rfl).2
    refine ⟨fun w hw => ?_, fun th i hi w hw => ?_, fun th hMem w => ?_⟩
    · simpa [Function.update_of_ne (hNot w hw).1] using h.exited w (hNot w hw).2
    · have hOld := h.before th i hi w hw
      by_cases hEq : w = ⟨k, hLt⟩
      · rw [hEq, hAbsent] at hOld
        simp at hOld
      · simpa [Function.update_of_ne hEq] using hOld
    · have hOld := h.after th hMem ⟨k, hLt⟩
      rw [hAbsent] at hOld
      simp at hOld
  | await th' =>
    refine h.of_same rfl rfl (fun th i hi => .inl ?_) (fun th hMem => by simpa using hMem)
    simp only [Option.some.injEq, Prod.mk.injEq] at hi
    exact hi.2.symm
  | destroy k =>
    refine h.of_same rfl rfl (fun th i hi => .inl ?_) (fun th hMem => by simpa using hMem)
    simp only [Option.some.injEq, Prod.mk.injEq] at hi
    exact hi.2.symm
  | joined th i hLt hAwait hThread hExit =>
    refine ⟨fun w hw => ?_, fun th' i' hi w hw => ?_, fun th' hMem w => ?_⟩
    · by_cases hEq : w = ⟨i, hLt⟩
      · rw [hEq]
        exact hExit
      · exact h.exited w (by simpa [Function.update_of_ne hEq] using hw)
    · simp only [Option.some.injEq, Prod.mk.injEq] at hi
      by_cases hEq : w = ⟨i, hLt⟩
      · simp [hEq]
      · have hNe : w.val ≠ i := fun hVal => hEq (Fin.ext hVal)
        simpa [Function.update_of_ne hEq] using h.before th i hAwait w (by omega)
    · rw [h.after th' hMem ⟨i, hLt⟩] at hThread
      simp at hThread
  | joinThrows th i =>
    exact h.of_same rfl rfl (by simp [leaveAwait])
      (fun th' hMem => by simpa [leaveAwait] using hMem)
  | awaited th i hGe hAwait =>
    -- the loop of `await()` has passed every index
    refine ⟨h.exited, by simp [leaveAwait], fun th' _ w => h.before th i hAwait w ?_⟩
    have := w.isLt
    omega
  | _ => exact h.of_same rfl rfl (fun _ _ hi => .inr hi) fun _ hMem => hMem

theorem joins (h : (system n B τ).Reachable s) : s.Joins :=
  System.Reachable.induction (P := Joins)
    ⟨fun _ hw => by simp [system, init] at hw, fun _ _ hi => by simp [system, init] at hi,
      fun _ hMem => by simp [system, init] at hMem⟩
    (fun _ _ _ hReach hOld hStep =>
      (step_cases hStep).2.joins (fresh_of_reachable hReach) hOld) h

/-- A joined thread has left `worker()`. -/
theorem joined_exited (h : (system n B τ).Reachable s) {w : Fin n}
    (hThread : s.threads w = .joined) : (s.workers w).pc = .exited :=
  (joins h).exited w hThread

/-- **After `await()`.** Once an `await()` has returned, every worker has
left `worker()`. -/
theorem awaited_exited (h : (system n B τ).Reachable s) {th : Thread n}
    (hMem : .awaited th ∈ s.hist) (w : Fin n) : (s.workers w).pc = .exited :=
  joined_exited h ((joins h).after th hMem w)

end ParameterizedPool

end ThreadPool.Model
