import ThreadPool.Model.Lifecycle

/-!
# ThreadPool — joining

`await()` joins the entries of `threads_` from the front and stops at the
first `join` that throws: on a thread that is joined already, or on the
calling thread itself. So the joined threads are always the first `m`, and
`m` moves only once: the first `await()` that can join anything
(`firstJoiner`) takes it as far as that caller reaches — all threads for a
client, the threads before its own for a worker — and every later call
throws at the front.

* `prefix_joined` — the characterisation, in every reachable state;
* `destructor_joins` — after the `try` block of the destructor every thread
  is joined exactly when the first joiner is a client.
-/

namespace ThreadPool.Model

open ThreadPool.Lib
open Process (first second)

variable {n : Nat} {τ : Type}

/-- The destructor has left its `try` block. -/
def Life.pastTry : Life → Bool
  | .teardown .dtor _ => true
  | .gone .dtor => true
  | _ => false

/-- The destructor has been entered. -/
def Life.dying : Life → Bool
  | .destructing => true
  | l => l.pastTry

/-- The thread of the first worker: its `await()` throws before it joins. -/
def Thread.isFront : Thread n → Bool
  | .worker w => w.val = 0
  | .client _ => false

/-- How many threads a caller can join when none is joined yet. -/
def Thread.reach : Thread n → Nat
  | .worker w => w.val
  | .client _ => n

def Event.awaiter : Event n → Option (Thread n)
  | .await th => some th
  | _ => none

/-- The callers of `await()`, in order; the destructor is one of them. -/
def awaiters (h : List (Event n)) : List (Thread n) := h.filterMap Event.awaiter

/-- The first caller of `await()` that can join anything. -/
def firstJoiner (h : List (Event n)) : Option (Thread n) :=
  (awaiters h).find? fun th => !th.isFront

/-- How many threads are joined when nobody awaits. -/
def joinTarget (h : List (Event n)) : Nat := (firstJoiner h).elim 0 Thread.reach

/-- The first `await()` not made on the first worker is made by a client. -/
def JoinsAll (h : List (Event n)) : Prop := ∃ k, firstJoiner h = some (.client k)

-- ---------------------------------------------------------------------------
-- The first joiner
-- ---------------------------------------------------------------------------

theorem Thread.reach_le (th : Thread n) : th.reach ≤ n := by
  cases th with
  | client => exact le_rfl
  | worker w => exact w.isLt.le

/-- Only the first worker reaches nothing, unless the pool has no threads. -/
theorem Thread.reach_pos {th : Thread n} (hFront : th.isFront = false) (hReach : th.reach = 0) :
    n = 0 := by
  cases th with
  | client => exact hReach
  | worker w =>
    have hVal : w.val = 0 := hReach
    simp [Thread.isFront, hVal] at hFront

theorem Thread.eq_of_isFront {th : Thread n} (hFront : th.isFront = true) (h : 0 < n) :
    th = .worker ⟨0, h⟩ := by
  cases th with
  | client => simp [Thread.isFront] at hFront
  | worker w =>
    simp only [Thread.isFront, decide_eq_true_eq] at hFront
    exact congrArg Thread.worker (Fin.ext hFront)

@[simp] theorem awaiters_append (h h' : List (Event n)) :
    awaiters (h ++ h') = awaiters h ++ awaiters h' := by
  simp [awaiters]

/-- The workers' events do not count. -/
theorem awaiters_worker (h : List (Event n)) (w : Fin n) (evs : List WorkerEvent) :
    awaiters (h ++ evs.map (Event.worker w)) = awaiters h := by
  simp [awaiters, Event.awaiter]

/-- A new caller becomes the first joiner if there is none and it can join. -/
theorem firstJoiner_await (h : List (Event n)) (th : Thread n) :
    firstJoiner (h ++ [.await th]) =
      (firstJoiner h).or (if th.isFront then none else some th) := by
  simp only [firstJoiner, awaiters_append, List.find?_append]
  congr 1
  cases hFront : th.isFront <;> simp [awaiters, Event.awaiter, hFront]

theorem firstJoiner_congr {h h' : List (Event n)} (hEq : awaiters h' = awaiters h) :
    firstJoiner h' = firstJoiner h := by
  simp [firstJoiner, hEq]

theorem not_isFront_of_firstJoiner {h : List (Event n)} {th : Thread n}
    (hFirst : firstJoiner h = some th) : th.isFront = false := by
  have hFound := List.find?_some hFirst
  simpa using hFound

namespace ParameterizedPool

variable {B : Nat} {s s' : ParameterizedPool n τ}

-- ---------------------------------------------------------------------------
-- How far joining got
-- ---------------------------------------------------------------------------

/-- Where the joining stands when `m` threads are joined: the first joiner
may be at work, at its own index; any other `await()` is about to throw at
the front. -/
def JoinedAt (m : Nat) (awaiting : Option (Thread n × Nat)) (h : List (Event n)) : Prop :=
  match awaiting with
  | none => m = joinTarget h
  | some (th, i) =>
    (firstJoiner h = some th ∧ i = m ∧ m ≤ th.reach) ∨
      (m = joinTarget h ∧ i = 0 ∧ (m = 0 → th.isFront = true ∨ n = 0))

/-- The joined threads are the first `m`. -/
def PrefixJoined (s : ParameterizedPool n τ) : Prop :=
  ∃ m ≤ n, (∀ w, s.threads w = .joined ↔ w.val < m) ∧ JoinedAt m s.awaiting s.hist

theorem JoinedAt.congr {m : Nat} {a : Option (Thread n × Nat)} {h h' : List (Event n)}
    (hAt : JoinedAt m a h) (hEq : awaiters h' = awaiters h) : JoinedAt m a h' := by
  simpa only [JoinedAt, joinTarget, firstJoiner_congr hEq] using hAt

/-- An `await()` begins. -/
theorem JoinedAt.await {m : Nat} {h : List (Event n)} (hAt : JoinedAt m none h) (th : Thread n) :
    JoinedAt m (some (th, 0)) (h ++ [.await th]) := by
  have hTarget : m = joinTarget h := hAt
  have hNext := firstJoiner_await h th
  cases hFirst : firstJoiner h with
  | none =>
    have hZero : m = 0 := by
      rw [hTarget, joinTarget, hFirst]
      rfl
    rw [hFirst, Option.none_or] at hNext
    by_cases hFront : th.isFront = true
    · rw [if_pos hFront] at hNext
      exact .inr ⟨by rw [joinTarget, hNext, hZero]; rfl, rfl, fun _ => .inl hFront⟩
    · rw [if_neg hFront] at hNext
      exact .inl ⟨hNext, hZero.symm, by omega⟩
  | some f =>
    -- somebody came first: this call will find the front joined
    rw [hFirst, Option.some_or] at hNext
    have hReach : m = f.reach := by
      rw [hTarget, joinTarget, hFirst]
      rfl
    refine .inr ⟨by rw [joinTarget, hNext, hReach]; rfl, rfl, fun hZero => .inr ?_⟩
    exact Thread.reach_pos (not_isFront_of_firstJoiner hFirst) (by omega)

/-- A `join` succeeds: the caller is the first joiner, and moves on. -/
theorem JoinedAt.joined {m i : Nat} {th : Thread n} {h : List (Event n)}
    (hAt : JoinedAt m (some (th, i)) h) (hLt : i < n) (hNot : ¬ i < m)
    (hSelf : th ≠ .worker ⟨i, hLt⟩) : i = m ∧ JoinedAt (m + 1) (some (th, i + 1)) h := by
  rcases hAt with ⟨hFirst, rfl, hLe⟩ | ⟨-, rfl, hZero⟩
  · refine ⟨rfl, .inl ⟨hFirst, rfl, ?_⟩⟩
    cases th with
    | client => exact hLt
    | worker v =>
      have hNe : v.val ≠ i := fun hVal => hSelf (congrArg Thread.worker (Fin.ext hVal))
      simp only [Thread.reach] at hLe ⊢
      omega
  · -- a caller that throws at the front does not get here
    rcases hZero (by omega) with hFront | rfl
    · exact absurd (Thread.eq_of_isFront hFront hLt) hSelf
    · omega

/-- A `join` throws: joining got as far as it ever will. -/
theorem JoinedAt.throws {m i : Nat} {th : Thread n} {h : List (Event n)}
    (hAt : JoinedAt m (some (th, i)) h) (hLt : i < n)
    (hThrow : ¬ i < m → th = .worker ⟨i, hLt⟩) : JoinedAt m none h := by
  rcases hAt with ⟨hFirst, rfl, hLe⟩ | ⟨hTarget, -⟩
  · have hSelf := hThrow (Nat.lt_irrefl i)
    rw [hSelf] at hFirst
    simp only [JoinedAt, joinTarget, hFirst, Option.elim_some, Thread.reach]
  · exact hTarget

/-- The loop of `await()` ends. -/
theorem JoinedAt.returns {m i : Nat} {th : Thread n} {h : List (Event n)}
    (hAt : JoinedAt m (some (th, i)) h) (hLe : m ≤ n) (hGe : n ≤ i) : JoinedAt m none h := by
  rcases hAt with ⟨hFirst, rfl, hReach⟩ | ⟨hTarget, -⟩
  · have hTop := th.reach_le
    simp only [JoinedAt, joinTarget, hFirst, Option.elim_some]
    omega
  · exact hTarget

theorem PrefixJoined.congr (h : s.PrefixJoined) (hThreads : s'.threads = s.threads)
    (hAwait : s'.awaiting = s.awaiting) (hHist : awaiters s'.hist = awaiters s.hist) :
    s'.PrefixJoined := by
  obtain ⟨m, hLe, hJoined, hAt⟩ := h
  exact ⟨m, hLe, by rwa [hThreads], by rw [hAwait]; exact hAt.congr hHist⟩

theorem Step.prefixJoined {a : Action n τ} (hStep : Step B s a s') (hFresh : s.Fresh)
    (hPresent : ∀ a, s.awaiting = some a → ∀ w, s.threads w ≠ .absent)
    (h : s.PrefixJoined) : s'.PrefixJoined := by
  cases hStep with
  | exit | enter | dequeueElem | dequeueReturn | invoke | again | taskReturn =>
    exact h.congr rfl rfl (awaiters_worker _ _ _)
  | spawn k hLt hLife =>
    obtain ⟨m, hLe, hJoined, hAt⟩ := h
    refine ⟨m, hLe, fun w => ?_, hAt⟩
    rw [← hJoined w]
    by_cases hEq : w = ⟨k, hLt⟩
    · simp [hEq, (hFresh k hLife ⟨k, hLt⟩ le_rfl).2]
    · simp [Function.update_of_ne hEq]
  | await th hCall hNone =>
    obtain ⟨m, hLe, hJoined, hAt⟩ := h
    rw [hNone] at hAt
    exact ⟨m, hLe, hJoined, hAt.await th⟩
  | destroy k hLife hNone =>
    obtain ⟨m, hLe, hJoined, hAt⟩ := h
    rw [hNone] at hAt
    exact ⟨m, hLe, hJoined, hAt.await (.client k)⟩
  | joined th i hLt hAwait hThread hExit hSelf =>
    obtain ⟨m, hLe, hJoined, hAt⟩ := h
    rw [hAwait] at hAt
    -- the entry was joinable, so it is not in the prefix
    have hNot : ¬ i < m := by
      intro hIn
      rw [(hJoined ⟨i, hLt⟩).mpr hIn] at hThread
      simp at hThread
    obtain ⟨rfl, hNext⟩ := hAt.joined hLt hNot hSelf
    refine ⟨i + 1, hLt, fun w => ?_, hNext⟩
    by_cases hEq : w = ⟨i, hLt⟩
    · simp [hEq]
    · have hNe : w.val ≠ i := fun hVal => hEq (Fin.ext hVal)
      simp only [Function.update_of_ne hEq]
      rw [hJoined w]
      omega
  | joinThrows th i hLt hAwait hThrow =>
    obtain ⟨m, hLe, hJoined, hAt⟩ := h
    rw [hAwait] at hAt
    refine ⟨m, hLe, hJoined, JoinedAt.congr (hAt.throws hLt fun hNot => hThrow ?_) ?_⟩
    · -- a thread that exists and is not joined is joinable
      have hOpen : s.threads ⟨i, hLt⟩ ≠ .joined := fun hEq => hNot ((hJoined _).mp hEq)
      cases hState : s.threads ⟨i, hLt⟩ <;> simp_all
    · simp [leaveAwait, awaiters, Event.awaiter]
  | awaited th i hGe hAwait =>
    obtain ⟨m, hLe, hJoined, hAt⟩ := h
    rw [hAwait] at hAt
    exact ⟨m, hLe, hJoined, (hAt.returns hLe hGe).congr
      (by simp [leaveAwait, awaiters, Event.awaiter])⟩
  | _ => exact h.congr rfl rfl rfl

/-- **The joined prefix.** In every reachable state the joined threads are
the first `m`, where `m` is what the first joiner reaches. -/
theorem prefix_joined (h : (system n B τ).Reachable s) : s.PrefixJoined := by
  refine System.Reachable.induction (P := PrefixJoined) ?_ ?_ h
  · exact ⟨0, Nat.zero_le n, fun w => by simp [system, init], rfl⟩
  · intro s a s' hReach hOld hStep
    exact (step_cases hStep).2.prefixJoined (fresh_of_reachable hReach)
      (fun _ hAwait => present_of_awaiting hReach hAwait) hOld

-- ---------------------------------------------------------------------------
-- The destructor
-- ---------------------------------------------------------------------------

/-- The destructor's own `await()` is on record; a client awaits only while
the object is alive or from the destructor; and a pool that is gone has left
no thread joinable. -/
structure Dying (s : ParameterizedPool n τ) : Prop where
  recorded : s.life.dying = true → ∃ k, .client k ∈ awaiters s.hist
  client : ∀ k i, s.awaiting = some (.client k, i) → s.life.pastTry = false
  gone : ∀ c, s.life = .gone c → ∀ w, s.threads w ≠ .joinable

theorem Dying.congr (h : s.Dying) (hLife : s'.life = s.life) (hThreads : s'.threads = s.threads)
    (hAwait : s'.awaiting = s.awaiting) (hHist : awaiters s'.hist = awaiters s.hist) :
    s'.Dying := by
  refine ⟨fun hDying => ?_, fun k i hk => ?_, fun c hc => ?_⟩
  · rw [hHist]
    exact h.recorded (hLife ▸ hDying)
  · rw [hLife]
    exact h.client k i (hAwait ▸ hk)
  · rw [hThreads]
    exact h.gone c (hLife ▸ hc)

/-- An `await()` ends, in the destructor or elsewhere. -/
private theorem Dying.leave (h : s.Dying) {e : Event n} (hEvent : e.awaiter = none) :
    (s.leaveAwait e).Dying := by
  have hHist : awaiters (s.leaveAwait e).hist = awaiters s.hist := by
    simp [leaveAwait, awaiters, hEvent]
  refine ⟨fun hDying => ?_, by simp [leaveAwait], fun c hc => ?_⟩
  · rw [hHist]
    refine h.recorded ?_
    simp only [leaveAwait] at hDying
    split at hDying
    · next hLife => simp [hLife, Life.dying]
    · exact hDying
  · simp only [leaveAwait] at hc
    split at hc
    · simp at hc
    · exact h.gone c hc

theorem Step.dying {a : Action n τ} (hStep : Step B s a s') (h : s.Dying) : s'.Dying := by
  cases hStep with
  | exit | enter | dequeueElem | dequeueReturn | invoke | again | taskReturn =>
    exact h.congr rfl rfl rfl (awaiters_worker _ _ _)
  | spawn | built | spawnThrows =>
    exact ⟨fun hDying => by simp [Life.dying, Life.pastTry] at hDying,
      fun _ _ _ => rfl, fun c hc => by simp at hc⟩
  | await th hCall =>
    refine ⟨fun hDying => ?_, fun k i hk => ?_, h.gone⟩
    · obtain ⟨k, hMem⟩ := h.recorded hDying
      exact ⟨k, by simp [hMem]⟩
    · simp only [Option.some.injEq, Prod.mk.injEq] at hk
      obtain ⟨rfl, -⟩ := hk
      simp [mayCall_client hCall, Life.pastTry]
  | joined th i hLt hAwait =>
    refine ⟨h.recorded, fun k j hk => ?_, fun c hc w => ?_⟩
    · simp only [Option.some.injEq, Prod.mk.injEq] at hk
      exact h.client k i (by rw [hAwait, hk.1])
    · have hOld := h.gone c hc w
      by_cases hEq : w = ⟨i, hLt⟩
      · simp [hEq]
      · simpa [Function.update_of_ne hEq] using hOld
  | joinThrows | awaited => exact h.leave rfl
  | destroy k =>
    exact ⟨fun _ => ⟨k, by simp [awaiters, Event.awaiter]⟩, fun _ _ _ => rfl,
      fun c hc => by simp at hc⟩
  | teardownDone c hLife | teardownTasks c hLife =>
    refine ⟨fun hDying => h.recorded ?_, fun k i hk => ?_, fun c hc => by simp at hc⟩
    · cases c <;> simp_all [Life.dying, Life.pastTry]
    · have hOld := h.client k i hk
      cases c <;> simp_all [Life.pastTry]
  | teardownThreads c hLife hThreads =>
    refine ⟨fun hDying => h.recorded ?_, fun k i hk => ?_, fun _ _ => hThreads⟩
    · cases c <;> simp_all [Life.dying, Life.pastTry]
    · have hOld := h.client k i hk
      cases c <;> simp_all [Life.pastTry]
  | _ => exact h.congr rfl rfl rfl rfl

theorem dying (h : (system n B τ).Reachable s) : s.Dying :=
  System.Reachable.induction (P := Dying)
    ⟨fun hDying => by simp [system, init, Life.dying, Life.pastTry] at hDying,
      fun _ _ hk => by simp [system, init] at hk, fun _ hc => by simp [system, init] at hc⟩
    (fun _ _ _ _ hOld hStep => (step_cases hStep).2.dying hOld) h

/-- Past the `try` block all threads are joined exactly if the first joiner
is a client. -/
theorem joined_iff (h : (system n B τ).Reachable s) (hLife : s.life.pastTry = true) :
    (∀ w, s.threads w = .joined) ↔ JoinsAll s.hist := by
  obtain ⟨m, hLe, hJoined, hAt⟩ := prefix_joined h
  have hAll : (∀ w, s.threads w = .joined) ↔ m = n := by
    simp only [hJoined]
    constructor
    · intro hLt
      rcases Nat.eq_or_lt_of_le hLe with hEq | hShort
      · exact hEq
      · exact absurd (hLt ⟨m, hShort⟩) (Nat.lt_irrefl m)
    · rintro rfl w
      exact w.isLt
  -- the destructor's own call is a joiner, so there is a first one
  obtain ⟨f, hFirst⟩ : ∃ f, firstJoiner s.hist = some f := by
    obtain ⟨k, hMem⟩ := (dying h).recorded (by
      cases hEq : s.life <;> simp_all [Life.dying, Life.pastTry])
    exact Option.isSome_iff_exists.mp (List.find?_isSome.mpr ⟨_, hMem, rfl⟩)
  have hClient : JoinsAll s.hist ↔ f.reach = n := by
    cases f with
    | client k => exact iff_of_true ⟨k, hFirst⟩ rfl
    | worker v =>
      have hLt := v.isLt
      simp [JoinsAll, hFirst, Thread.reach]
      omega
  have hTarget : joinTarget s.hist = f.reach := by rw [joinTarget, hFirst, Option.elim_some]
  rw [hAll, hClient]
  cases hAwait : s.awaiting with
  | none =>
    rw [hAwait] at hAt
    have hEq : m = joinTarget s.hist := hAt
    omega
  | some a =>
    obtain ⟨th, i⟩ := a
    rw [hAwait] at hAt
    rcases hAt with ⟨hTh, -, hReach⟩ | ⟨hEq, -⟩
    · -- a first joiner still at work is a worker, for clients are gone
      rw [hFirst, Option.some.injEq] at hTh
      subst hTh
      cases f with
      | client k =>
        have hNot := (dying h).client k i hAwait
        rw [hLife] at hNot
        simp at hNot
      | worker v =>
        simp only [Thread.reach] at hReach ⊢
        omega
    · omega

/-- A destructor that has completed has joined every thread. -/
theorem joined_of_gone (h : (system n B τ).Reachable s) (hLife : s.life = .gone .dtor)
    (w : Fin n) : s.threads w = .joined := by
  have hExists := (present h).2 (by simp [hLife, Life.fromCtor]) w
  have hOpen := (dying h).gone _ hLife w
  cases hState : s.threads w <;> simp_all

/-- With every thread joined, the destruction of the members is safe. -/
theorem no_abort_of_joinsAll (h : (system n B τ).Reachable s) (hLife : s.life.pastTry = true)
    (hJoins : JoinsAll s.hist) :
    s.abort ≠ some .joinableDestroyed ∧ s.abort ≠ some .dangling := by
  refine System.Reachable.induction (P := fun s : ParameterizedPool n τ =>
    s.life.pastTry = true → JoinsAll s.hist →
      s.abort ≠ some .joinableDestroyed ∧ s.abort ≠ some .dangling) ?_ ?_ h hLife hJoins
  · simp [system, init, Life.pastTry]
  intro s a s' hReach _ hStep hLife' hJoins'
  obtain ⟨hNone, hCases⟩ := step_cases hStep
  rcases hCases.abort_eq hNone with hNone' | ⟨r, hCause, rfl⟩
  · simp [hNone']
  have hJoined := (joined_iff hReach hLife').mpr hJoins'
  -- every worker is out of its loop and every thread is joined
  cases hCause with
  | growThrows k hOld => simp [kill, hOld, Life.pastTry] at hLife'
  | doneGone w hPc =>
    rw [joined_exited hReach (hJoined w)] at hPc
    simp at hPc
  | elemGone w _ c hPc | returnGone w c hPc =>
    rw [joined_exited hReach (hJoined w)] at hPc
    simp at hPc
  | joinable c w hOld hThread =>
    rw [hJoined w] at hThread
    simp at hThread
  | _ => simp [kill]

end ParameterizedPool

/-- **Joining.** After the `try` block of the destructor every worker has
exited and been joined if and only if the first `await()` that was not made
on worker 0 was made by a client (the destructor's own call is the last
candidate). In that case neither a joinable thread is destroyed nor a
member used after its destruction; in the other the destruction does not
complete. -/
theorem destructor_joins {B : Nat} {L : Types} {s : Process n L}
    (h : (Process.system n B L).Reachable s) (hLife : s.pool.life.pastTry = true) :
    ((∀ w, s.pool.threads w = .joined ∧ (s.pool.workers w).pc = .exited) ↔
        JoinsAll s.pool.hist) ∧
      (JoinsAll s.pool.hist →
        s.pool.abort ≠ some .joinableDestroyed ∧ s.pool.abort ≠ some .dangling) ∧
      (s.pool.life = .gone .dtor → JoinsAll s.pool.hist) := by
  have hPool := Process.pool_reachable h
  have hIff := ParameterizedPool.joined_iff hPool hLife
  refine ⟨?_, ParameterizedPool.no_abort_of_joinsAll hPool hLife,
    fun hGone => hIff.mp (ParameterizedPool.joined_of_gone hPool hGone)⟩
  rw [← hIff]
  exact ⟨fun hAll w => (hAll w).1,
    fun hAll w => ⟨hAll w, ParameterizedPool.joined_exited hPool (hAll w)⟩⟩

/-- A client stops and awaits the pool; the `await()` of the destructor then
throws at the front. -/
def clientJoins : Process 2 Process.natTypes :=
  ((Process.system 2 1 Process.natTypes).run (Process.system 2 1 Process.natTypes).init
    (Process.construct 2 ++
      [.control (.stop (.client 0)), .control (.check second), .control (.await (.client 0)),
        .control (.check first), .control .join, .control .join, .control .join,
        .control (.destroy 1), .control .join])).get rfl

theorem destructor_joins_clientJoins :
    clientJoins.pool.threads 1 = .joined ∧ (clientJoins.pool.workers 1).pc = .exited :=
  (destructor_joins (s := clientJoins) (System.Reachable.get _ rfl) rfl).1.mpr ⟨0, rfl⟩ 1

/-- A task on worker 1 stops and awaits the pool: it joins thread 0 and
throws on its own thread. The destructor then throws on thread 0. -/
def workerJoins : List (Process.Op 2 Process.natTypes) :=
  Process.construct 2 ++ [.schedule (.client 0) none (Process.adder 0) [] faultless] ++
    Process.takeBatch second 1 ++
    [.control (.stop (.worker second)), .control (.check first), .control (.await (.worker second)),
      .control .join, .control .join, .invoke second, .control (.loop second),
      .control (.check second), .control (.destroy 0), .control .join]

/-- After that run thread 1 has exited and is still joinable, and destroying
`threads_` terminates the process. -/
theorem workerJoins_terminates :
    ¬ (∀ s : Process 2 Process.natTypes, (Process.system 2 1 Process.natTypes).Reachable s →
        s.pool.life.pastTry = true →
        ∀ w, s.pool.threads w = .joined ∧ (s.pool.workers w).pc = .exited) ∧
      ((Process.system 2 1 Process.natTypes).run (Process.system 2 1 Process.natTypes).init
        (workerJoins ++ List.replicate 3 (.control .teardown))).map (fun s => s.pool.abort) =
          some (some .joinableDestroyed) := by
  refine ⟨fun hAll => ?_, rfl⟩
  have hJoined := hAll _ (System.Reachable.get workerJoins rfl) rfl 1
  exact absurd hJoined.1 (by decide)

end ThreadPool.Model
