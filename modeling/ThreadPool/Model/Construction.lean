import ThreadPool.Model.Lifecycle

/-!
# ThreadPool — a constructor that throws

Each turn of `while (concurrency--)` can fail twice: the `std::thread` is not
created, or it is and `threads_` cannot grow to hold it. Nothing in the
constructor catches that, and the destructor of a half-built object does not
run, so the members are destroyed as they stand: `done_`, `tasks_`,
`threads_`.

* `Bare` — before the first thread there is nobody to stop, and the
  destruction runs through;
* `not_gone_of_joinable` — with a thread in `threads_` the exception never
  reaches the caller;
* `constructor_failure` — the failure is clean exactly when it is the
  creation of the first thread.
-/

namespace ThreadPool.Model

open ThreadPool.Lib
open Process (first)

variable {n : Nat} {τ : Type}

/-- What throws in a turn of the loop of the constructor. -/
inductive Failure
  /-- the constructor of `std::thread` -/
  | thread
  /-- the growth of `threads_` -/
  | growth
  deriving DecidableEq

def Failure.control : Failure → Control n
  | .thread => .spawnThrows
  | .growth => .growThrows

/-- The thread is inside `worker()`, which reads `done_` and `tasks_`. -/
def Pc.inside : Pc → Bool
  | .unstarted => false
  | .exited => false
  | _ => true

/-- The constructor has thrown in `s`, and the failure is clean, whatever
the threads do from here on: the exception can always get to the caller, and
when it does every thread that was created has been told to stop and joined;
no joinable thread is destroyed; and nobody is inside `worker()` once a
member it reads is gone. -/
structure CleanFailure (B : Nat) {L : Types} (s : Process n L) : Prop where
  propagates : ∀ t, (Process.system n B L).Leads s t →
    ∃ u, (Process.system n B L).Leads t u ∧ u.pool.life = .gone .ctor
  joined : ∀ t, (Process.system n B L).Leads s t → t.pool.life = .gone .ctor →
    ∀ w, t.pool.threads w ≠ .absent → t.pool.done = true ∧ t.pool.threads w = .joined
  threads : ∀ t, (Process.system n B L).Leads s t → t.pool.abort ≠ some .joinableDestroyed
  members : ∀ t, (Process.system n B L).Leads s t → t.pool.abort ≠ some .dangling ∧
    (t.pool.life.doneAlive = false → ∀ w, (t.pool.workers w).pc.inside = false)

namespace ParameterizedPool

variable {B : Nat} {s s' : ParameterizedPool n τ}

-- ---------------------------------------------------------------------------
-- No thread yet
-- ---------------------------------------------------------------------------

/-- The members are being destroyed, and no thread was ever created. -/
structure Bare (s : ParameterizedPool n τ) : Prop where
  life : s.life = .gone .ctor ∨ ∃ m, s.life = .teardown .ctor m
  workers : ∀ w, (s.workers w).pc = .unstarted
  threads : ∀ w, s.threads w = .absent
  abort : s.abort = none

theorem Bare.fromCtor (h : s.Bare) : s.life.fromCtor = true := by
  rcases h.life with hLife | ⟨m, hLife⟩ <;> simp [hLife, Life.fromCtor]

/-- The destruction that goes on is that of the constructor. -/
theorem Bare.cause (h : s.Bare) {c : Cause} {m : Member} (hLife : s.life = .teardown c m) :
    c = .ctor := by
  have hCtor := h.fromCtor
  rw [hLife] at hCtor
  cases c with
  | ctor => rfl
  | dtor => simp [Life.fromCtor] at hCtor

/-- Only the destruction of the members goes on. -/
theorem Step.bare {a : Action n τ} (hStep : Step B s a s') (hReach : (system n B τ).Reachable s)
    (h : s.Bare) : s'.Bare := by
  have hUnbuilt := unbuilt hReach h.fromCtor
  -- nobody is inside a member function, for nobody has an object to call
  have hSilent : ∀ th, s.mayCall th = false :=
    not_mayCall hReach h.fromCtor hUnbuilt.accepted
  cases hStep with
  | exit w hPc | enter w hPc | dequeueElem w _ _ _ hPc | dequeueReturn w _ hPc
  | invoke w _ _ _ hPc | again w _ _ hPc | taskReturn w _ _ _ hPc =>
    rw [h.workers w] at hPc
    cases hPc
  -- the constructor has thrown, and no object exists to be destroyed
  | spawn k _ hLife | built k _ hLife | spawnThrows k _ hLife | destroy k hLife =>
    have hCtor := h.life
    simp [hLife] at hCtor
  | stop th hCall | await th hCall | enqueue th _ _ hCall =>
    rw [hSilent th] at hCall
    cases hCall
  | joined _ _ _ hAwait | joinThrows _ _ _ hAwait | awaited _ _ _ hAwait =>
    rw [hUnbuilt.awaiting] at hAwait
    cases hAwait
  | teardownDone c hLife | teardownTasks c hLife =>
    obtain rfl := h.cause hLife
    exact ⟨.inr ⟨_, rfl⟩, h.workers, h.threads, h.abort⟩
  | teardownThreads c hLife =>
    obtain rfl := h.cause hLife
    exact ⟨.inl rfl, h.workers, h.threads, h.abort⟩
  | abort _ r hCause =>
    -- what can end a process takes a worker, a caller or a joinable thread
    cases hCause with
    | growThrows k hLife =>
      have hCtor := h.life
      simp [hLife] at hCtor
    | unfilledSlot w _ _ hPc | outOfBounds w _ _ hPc | doneGone w hPc | elemGone w _ _ hPc
    | returnGone w _ hPc =>
      rw [h.workers w] at hPc
      cases hPc
    | joinable c w hLife hThread =>
      rw [h.threads w] at hThread
      cases hThread
    | noexceptThrow th hCall =>
      rw [hSilent th] at hCall
      cases hCall
    | escaped w e hCur =>
      obtain ⟨i, k, hPc, -⟩ := current_eq_some hCur
      rw [h.workers w] at hPc
      cases hPc

theorem Bare.leads (h : s.Bare) (hReach : (system n B τ).Reachable s)
    (hLeads : (system n B τ).Leads s s') : s'.Bare :=
  System.Leads.induction (P := Bare) h
    (fun _ _ _ hPrefix hBare hStep =>
      (step_cases hStep).2.bare (hReach.leads hPrefix) hBare) hLeads

-- ---------------------------------------------------------------------------
-- A thread in `threads_`
-- ---------------------------------------------------------------------------

/-- The constructor joins nobody. -/
theorem not_joined (h : (system n B τ).Reachable s) (hLife : s.life.fromCtor = true)
    (w : Fin n) : s.threads w ≠ .joined := by
  refine System.Reachable.induction
    (P := fun s : ParameterizedPool n τ => s.life.fromCtor = true → ∀ w, s.threads w ≠ .joined)
    (fun _ w => by simp [system, init]) ?_ h hLife w
  intro s a s' hReach hOld hStep hLife w
  have hPrev := hOld ((step_cases hStep).2.fromCtor_of hLife)
  cases (step_cases hStep).2 with
  | spawn k hLt =>
    by_cases hEq : w = ⟨k, hLt⟩
    · simp [hEq]
    · simpa [Function.update_of_ne hEq] using hPrev w
  | joined th i hLt hAwait =>
    rw [(unbuilt hReach hLife).awaiting] at hAwait
    cases hAwait
  | _ => exact hPrev w

/-- A thread created by a constructor that has thrown stays joinable. -/
theorem joinable_of_leads (h : (system n B τ).Reachable s) {m : Member}
    (hLife : s.life = .teardown .ctor m) {w : Fin n} (hThread : s.threads w = .joinable)
    (hLeads : (system n B τ).Leads s s') :
    s'.threads w = .joinable ∧ ∃ m, s'.life = .teardown .ctor m := by
  refine System.Leads.induction
    (P := fun t : ParameterizedPool n τ =>
      t.threads w = .joinable ∧ ∃ m, t.life = .teardown .ctor m)
    ⟨hThread, m, hLife⟩ ?_ hLeads
  rintro t a u hPrefix ⟨hOpen, m', hDown⟩ hStep
  have hUnbuilt := unbuilt (h.leads hPrefix) (by simp [hDown, Life.fromCtor])
  cases (step_cases hStep).2 with
  | spawn k _ hOld | built k _ hOld | spawnThrows k _ hOld | destroy k hOld =>
    rw [hDown] at hOld
    cases hOld
  -- the constructor calls no `await()`
  | joined _ _ _ hAwait | joinThrows _ _ _ hAwait | awaited _ _ _ hAwait =>
    rw [hUnbuilt.awaiting] at hAwait
    cases hAwait
  | teardownDone c hOld | teardownTasks c hOld =>
    rw [hDown] at hOld
    cases hOld
    exact ⟨hOpen, _, rfl⟩
  -- `threads_` is destroyed without ending the process only if nothing in it is joinable
  | teardownThreads c hOld hThreads => exact absurd hOpen (hThreads w)
  | _ => exact ⟨hOpen, m', hDown⟩

/-- With a thread in `threads_` the destruction of the members does not
complete. -/
theorem not_gone_of_joinable (h : (system n B τ).Reachable s) {m : Member}
    (hLife : s.life = .teardown .ctor m) {w : Fin n} (hThread : s.threads w = .joinable)
    (hLeads : (system n B τ).Leads s s') : s'.life ≠ .gone .ctor := by
  obtain ⟨-, m', hDown⟩ := joinable_of_leads h hLife hThread hLeads
  simp [hDown]

/-- During construction the threads created so far are joinable. -/
theorem joinable_of_constructing (h : (system n B τ).Reachable s) {k : Nat}
    (hLife : s.life = .constructing k) {w : Fin n} (hLt : w.val < k) :
    s.threads w = .joinable := by
  have hExists := (present h).1 k hLife w hLt
  have hOpen := not_joined h (by simp [hLife, Life.fromCtor]) w
  cases hState : s.threads w <;> simp_all

/-- A process that has ended stays as it is. -/
theorem eq_of_aborted {r : Abort} (hAbort : s.abort = some r)
    (hLeads : (system n B τ).Leads s s') : s' = s := by
  refine System.Leads.induction (P := fun t => t = s) rfl ?_ hLeads
  rintro t a u - rfl hStep
  rw [(step_cases hStep).1] at hAbort
  cases hAbort

end ParameterizedPool

-- ---------------------------------------------------------------------------
-- The process
-- ---------------------------------------------------------------------------

namespace Process

variable {B : Nat} {L : Types} {s s' : Process n L}

/-- One member is destroyed. -/
theorem teardown_leads {pool : ParameterizedPool n (Consumer L)} (hAlive : s.pool.abort = none)
    (hPool : s.pool.teardown = some pool) :
    ∃ t, (system n B L).Leads s t ∧ t.pool = pool := by
  have hStep : s.pool.step B (.control .teardown) = some pool := by
    simp [ParameterizedPool.step, hAlive, ParameterizedPool.control, hPool]
  exact ⟨_, .single (step_control hStep), rfl⟩

/-- `done_` and `tasks_` are always destroyed. -/
theorem teardown_threads (hAlive : s.pool.abort = none) {c : Cause} {m : Member}
    (hLife : s.pool.life = .teardown c m) :
    ∃ t, (system n B L).Leads s t ∧ t.pool.life = .teardown c .threads ∧
      t.pool.threads = s.pool.threads ∧ t.pool.abort = none := by
  -- the queue goes in one step, from any state before it
  have hTasks : ∀ t : Process n L, t.pool.life = .teardown c .tasks → t.pool.abort = none →
      ∃ u, (system n B L).Leads t u ∧ u.pool.life = .teardown c .threads ∧
        u.pool.threads = t.pool.threads ∧ u.pool.abort = none := by
    intro t hLife' hAlive'
    obtain ⟨u, hLeads, hPool⟩ := teardown_leads (B := B) (s := t) hAlive' (by
      rw [ParameterizedPool.teardown, hLife'])
    exact ⟨u, hLeads, by rw [hPool], by rw [hPool], by rw [hPool]; exact hAlive'⟩
  cases m with
  | threads => exact ⟨s, .refl s, hLife, rfl, hAlive⟩
  | tasks => exact hTasks s hLife hAlive
  | done =>
    obtain ⟨t, hLeads, hPool⟩ := teardown_leads (B := B) hAlive (by
      rw [ParameterizedPool.teardown, hLife])
    obtain ⟨u, hRest, hLast, hThreads, hAlive'⟩ :=
      hTasks t (by rw [hPool]) (by rw [hPool]; exact hAlive)
    exact ⟨u, hLeads.trans hRest, hLast, by rw [hThreads, hPool], hAlive'⟩

/-- Without a joinable thread the destruction of the members completes. -/
theorem teardown_gone (hAlive : s.pool.abort = none) {c : Cause} {m : Member}
    (hLife : s.pool.life = .teardown c m) (hThreads : ∀ w, s.pool.threads w ≠ .joinable) :
    ∃ t, (system n B L).Leads s t ∧ t.pool.life = .gone c := by
  obtain ⟨t, hLeads, hLast, hSame, hAlive'⟩ := teardown_threads (B := B) hAlive hLife
  have hStep : t.pool.teardown = some { t.pool with life := .gone c } := by
    simp [ParameterizedPool.teardown, hLast, hSame, hThreads]
  obtain ⟨u, hRest, hPool⟩ := teardown_leads (B := B) hAlive' hStep
  exact ⟨u, hLeads.trans hRest, by rw [hPool]⟩

/-- With a joinable thread it ends the process. -/
theorem teardown_terminates (hAlive : s.pool.abort = none) {c : Cause} {m : Member}
    (hLife : s.pool.life = .teardown c m) {w : Fin n} (hThread : s.pool.threads w = .joinable) :
    ∃ t, (system n B L).Leads s t ∧ t.pool.abort = some .joinableDestroyed := by
  obtain ⟨t, hLeads, hLast, hSame, hAlive'⟩ := teardown_threads (B := B) hAlive hLife
  have hOpen : ∃ w, t.pool.threads w = .joinable := ⟨w, by rw [hSame, hThread]⟩
  have hStep : t.pool.teardown = some (t.pool.kill .joinableDestroyed) := by
    simp [ParameterizedPool.teardown, hLast, hOpen]
  obtain ⟨u, hRest, hPool⟩ := teardown_leads (B := B) hAlive' hStep
  exact ⟨u, hLeads.trans hRest, by rw [hPool]; rfl⟩

/-- Without a thread in `threads_` the failure is clean. -/
theorem cleanFailure_of_bare (h : (system n B L).Reachable s) (hBare : s.pool.Bare) :
    CleanFailure B s := by
  have hKept : ∀ {t}, (system n B L).Leads s t → t.pool.Bare := fun hLeads =>
    hBare.leads (pool_reachable h) ((simulation n B L).leads hLeads)
  refine ⟨?_, ?_, ?_, ?_⟩
  · intro t hLeads
    rcases (hKept hLeads).life with hGone | ⟨m, hDown⟩
    · exact ⟨t, .refl t, hGone⟩
    · exact teardown_gone (hKept hLeads).abort hDown fun w => by simp [(hKept hLeads).threads w]
  · intro t hLeads _ w hCreated
    -- no thread was created
    exact absurd ((hKept hLeads).threads w) hCreated
  · intro t hLeads
    simp [(hKept hLeads).abort]
  · intro t hLeads
    refine ⟨by simp [(hKept hLeads).abort], ?_⟩
    intro _ w
    simp [(hKept hLeads).workers w, Pc.inside]

end Process

/-- What a failing turn of the constructor does at once. -/
theorem Failure.effect {B k : Nat} {s s' : ParameterizedPool n τ} {f : Failure}
    (hLife : s.life = .constructing k) (hStep : s.step B (.control f.control) = some s') :
    match f with
    | .thread => k < n ∧ s.abort = none ∧ s' = { s with life := .teardown .ctor .done }
    | .growth => s' = s.kill .joinableDestroyed := by
  obtain ⟨hAlive, hCases⟩ := ParameterizedPool.step_cases hStep
  cases f with
  | thread =>
    cases hCases with
    | spawnThrows k' hLt hLife' =>
      rw [hLife] at hLife'
      cases hLife'
      exact ⟨hLt, hAlive, rfl⟩
    | abort _ r hCause => cases hCause
  | growth =>
    cases hCases with
    | abort _ r hCause => cases hCause; rfl

/-- **A constructor that throws.** Let a turn of the loop of the constructor
fail with `k` threads started, in any interleaving with them. The failure is
clean if and only if it is the creation of the first thread: `k = 0`, and
not the growth of `threads_`. In every other case the exception does not
reach the caller at all. -/
theorem constructor_failure {B : Nat} {L : Types} {s s' : Process n L}
    (h : (Process.system n B L).Reachable s) {k : Nat} (hLife : s.pool.life = .constructing k)
    (f : Failure) (hStep : (Process.system n B L).step s (.control f.control) = some s') :
    (CleanFailure B s' ↔ f = .thread ∧ k = 0) ∧
      (¬ (f = .thread ∧ k = 0) →
        ∀ t, (Process.system n B L).Leads s' t → t.pool.life ≠ .gone .ctor) := by
  have hReach := Process.pool_reachable h
  have hReach' := Process.pool_reachable (h.step hStep)
  have hEffect := Failure.effect hLife (Process.pool_of_step_control hStep)
  cases f with
  | growth =>
    -- the temporary is destroyed joinable on the spot
    have hAbort : s'.pool.abort = some .joinableDestroyed := by rw [hEffect]; rfl
    refine ⟨iff_of_false (fun hClean => hClean.threads s' (.refl s') hAbort) (by simp), ?_⟩
    intro _ t hLeads
    have hSame := ParameterizedPool.eq_of_aborted hAbort
      ((Process.simulation n B L).leads hLeads)
    rw [show t.pool = s'.pool from hSame, hEffect]
    simp [ParameterizedPool.kill, hLife]
  | thread =>
    obtain ⟨hLt, hAlive, hPool⟩ := hEffect
    have hDown : s'.pool.life = .teardown .ctor .done := by rw [hPool]
    have hAlive' : s'.pool.abort = none := by rw [hPool]; exact hAlive
    -- with a thread started, the first one is joinable, and nobody will join it
    have hFirst : ∀ hPos : 0 < k, s'.pool.threads ⟨0, by omega⟩ = .joinable := by
      intro hPos
      rw [hPool]
      exact ParameterizedPool.joinable_of_constructing hReach hLife hPos
    refine ⟨⟨fun hClean => ⟨rfl, ?_⟩, ?_⟩, ?_⟩
    · by_contra hStarted
      -- the workers may stand still while the members are destroyed
      obtain ⟨t, hLeads, hAbort⟩ := Process.teardown_terminates (B := B) hAlive' hDown
        (hFirst (Nat.pos_of_ne_zero hStarted))
      exact hClean.threads t hLeads hAbort
    · rintro ⟨-, rfl⟩
      have hFresh := ParameterizedPool.fresh_of_reachable hReach 0 hLife
      have hBare : s'.pool.Bare := by
        rw [hPool]
        exact ⟨.inr ⟨.done, rfl⟩, fun w => by simp [(hFresh w (Nat.zero_le _)).1],
          fun w => (hFresh w (Nat.zero_le _)).2, hAlive⟩
      exact Process.cleanFailure_of_bare (h.step hStep) hBare
    · intro hStarted t hLeads
      have hPos : 0 < k := Nat.pos_of_ne_zero fun hZero => hStarted ⟨rfl, hZero⟩
      exact ParameterizedPool.not_gone_of_joinable hReach' hDown (hFirst hPos)
        ((Process.simulation n B L).leads hLeads)

/-- The first thread of a pool of two cannot be created. -/
def firstFails : Process 2 Process.natTypes :=
  ((Process.system 2 1 Process.natTypes).run (Process.system 2 1 Process.natTypes).init
    [.control .spawnThrows]).get rfl

theorem constructor_failure_firstFails : CleanFailure 1 firstFails :=
  (constructor_failure (k := 0) System.Reachable.init rfl .thread rfl).1.mpr ⟨rfl, rfl⟩

/-- The second one cannot, with the first at work. -/
def secondFails : Process 2 Process.natTypes :=
  ((Process.system 2 1 Process.natTypes).run (Process.system 2 1 Process.natTypes).init
    [.control .spawn, .control .spawnThrows]).get rfl

/-- Then worker 0 reads `done_` after its destruction, or the destruction of
`threads_` meets its joinable thread. -/
theorem secondFails_terminates :
    ¬ CleanFailure 1 secondFails ∧
      ((Process.system 2 1 Process.natTypes).run secondFails
        [.control .teardown, .control (.check first)]).map (fun s => s.pool.abort) =
          some (some .dangling) ∧
      ((Process.system 2 1 Process.natTypes).run secondFails
        (List.replicate 3 (.control .teardown))).map (fun s => s.pool.abort) =
          some (some .joinableDestroyed) := by
  refine ⟨fun hClean => ?_, rfl, rfl⟩
  exact hClean.threads _ (System.Leads.get _ (List.replicate 3 (.control .teardown)) rfl) rfl

end ThreadPool.Model
