import ThreadPool.Model.Futures

/-!
# ThreadPool — tasks that throw

A worker goes through its batch slot by slot (`turn`). A call that returns
moves this worker's frame and resolves at most the future of its own task;
an exception that leaves a call leaves `worker()` and ends the process.

A packaged task keeps its exception, so whatever `schedule` accepted may
throw. The functions of `schedule_and_forget` and `schedule_bulk` are called
bare (`Consumer.escapes`).

* `turn_of_within` — whatever happens elsewhere, a worker calls the slots of
  its batch in order, each once;
* `exceptions_isolated` — it gets through a batch exactly if no bare function
  of the batch throws.
-/

namespace ThreadPool.Model

open ThreadPool.Lib
open Process (only)

variable {n : Nat} {τ : Type}

/-- What a worker records while it goes through the batch `b`. -/
def turn (b : List (Elem n τ)) : List WorkerEvent :=
  b.flatMap fun e => [.start e.id, .finish e.id]

/-- The exception that leaves the first call of a consumer. -/
def Consumer.escapes {L : Types} : Consumer L → Option (Exn L)
  | .empty => some .badFunctionCall
  | .function b => (b.callable.outcome b.args).thrown
  | .packaged _ => none

-- ---------------------------------------------------------------------------
-- A worker in its batch
-- ---------------------------------------------------------------------------

theorem turn_append (b b' : List (Elem n τ)) : turn (b ++ b') = turn b ++ turn b' := by
  simp [turn]

theorem turn_take_succ {b : List (Elem n τ)} {i : Nat} {e : Elem n τ} (he : b[i]? = some e) :
    turn (b.take (i + 1)) = turn (b.take i) ++ [.start e.id, .finish e.id] := by
  rw [List.take_add_one, he, turn_append]
  rfl

/-- How far a worker got with the array `r`, and what it recorded since. -/
def Progressed (r : List (Option (Elem n τ))) (x : Worker n τ) (evs : List WorkerEvent) : Prop :=
  match x.pc with
  | .looping i _ => x.runnable = r ∧ evs = turn ((r.filterMap id).take i)
  | .invoking i _ => x.runnable = r ∧ ∃ e, (r.filterMap id)[i]? = some e ∧
      evs = turn ((r.filterMap id).take i) ++ [.start e.id]
  | .check | .exited => evs = turn (r.filterMap id)
  | _ => False

theorem Move.progressed {B : Nat} {s : ParameterizedPool n τ} {x y : Worker n τ}
    {r : List (Option (Elem n τ))} {evs new : List WorkerEvent} (hMove : Move B s x y new)
    (hShape : x.Shape B) (h : Progressed r x evs) :
    .enter ∈ new ∨ Progressed r y (evs ++ new) := by
  cases hMove with
  | rest => exact .inr (by rwa [List.append_nil])
  | enter => exact .inl (List.mem_singleton_self _)
  | spawn hPc => simp [Progressed, hPc] at h
  | dequeueElem c e hPc | dequeueReturn c hPc => simp [Progressed, hPc] at h
  | exit hPc => exact .inr (by simpa [Progressed, hPc] using h)
  | invoke i k e hPc hLt hSlot =>
    simp only [Progressed, hPc] at h
    obtain ⟨rfl, rfl⟩ := h
    exact .inr ⟨rfl, e, hShape.slot_iff.mp hSlot, rfl⟩
  | again i k hPc hGe =>
    simp only [Progressed, hPc] at h
    obtain ⟨rfl, rfl⟩ := h
    -- the index has passed the batch
    obtain ⟨-, rfl, -⟩ := hShape.looping hPc
    have hAll : x.batch.take i = x.batch := List.take_of_length_le hGe
    refine .inr ?_
    simp only [Progressed, List.append_nil]
    exact congrArg turn hAll
  | taskReturn i k e hPc hSlot =>
    simp only [Progressed, hPc] at h
    obtain ⟨rfl, e', hAt, rfl⟩ := h
    have hSame : (x.runnable.filterMap id)[i]? = some e := hShape.slot_iff.mp hSlot
    rw [hAt, Option.some.injEq] at hSame
    subst hSame
    refine .inr ⟨rfl, ?_⟩
    rw [turn_take_succ hAt, List.append_assoc]
    rfl

/-- All that is recorded is the beginning of the turn. -/
theorem Progressed.isPrefix {r : List (Option (Elem n τ))} {x : Worker n τ}
    {evs : List WorkerEvent} (h : Progressed r x evs) : evs <+: turn (r.filterMap id) := by
  have hTake : ∀ i, turn ((r.filterMap id).take i) <+: turn (r.filterMap id) := fun i =>
    ⟨turn ((r.filterMap id).drop i), by rw [← turn_append, List.take_append_drop]⟩
  unfold Progressed at h
  split at h
  · exact h.2 ▸ hTake _
  · next i k hPc =>
    obtain ⟨-, e, hAt, rfl⟩ := h
    refine List.IsPrefix.trans ?_ (hTake (i + 1))
    rw [turn_take_succ hAt]
    exact ⟨[.finish e.id], by simp⟩
  · exact h ▸ List.prefix_rfl
  · exact h ▸ List.prefix_rfl
  · exact h.elim

variable {L : Types} {B : Nat}

/-- `s'` continues `s`, the process is alive, and worker `w`, which recorded
`evs` since `s`, has not begun another turn. -/
structure Within (B : Nat) (s s' : Process n L) (w : Fin n) (evs : List WorkerEvent) : Prop where
  leads : (Process.system n B L).Leads s s'
  alive : s'.pool.abort = none
  records : own w s'.pool.hist = own w s.pool.hist ++ evs
  sameTurn : .enter ∉ evs

/-- **One turn.** Whatever the tasks and the other threads do, the calls of a
worker in one turn are the slots of its batch in order, each once. -/
theorem turn_of_within {s s' : Process n L} (h : (Process.system n B L).Reachable s) {w : Fin n}
    {k : Nat} (hPc : (s.pool.workers w).pc = .looping 0 k) {evs : List WorkerEvent}
    (hWithin : Within B s s' w evs) :
    Progressed (s.pool.workers w).runnable (s'.pool.workers w) evs := by
  -- over the run of the pool: `w` is still in this turn, or began another
  have hRun : ∃ evs, own w s'.pool.hist = own w s.pool.hist ++ evs ∧
      (.enter ∈ evs ∨ Progressed (s.pool.workers w).runnable (s'.pool.workers w) evs) := by
    have hPool := Process.pool_reachable h
    refine System.Leads.induction (P := fun t : ParameterizedPool n (Consumer L) =>
      ∃ evs, own w t.hist = own w s.pool.hist ++ evs ∧
        (.enter ∈ evs ∨ Progressed (s.pool.workers w).runnable (t.workers w) evs)) ?_ ?_
      ((Process.simulation n B L).leads hWithin.leads)
    · have hStart : Progressed (s.pool.workers w).runnable (s.pool.workers w) [] := by
        simp [Progressed, hPc, turn]
      exact ⟨[], (List.append_nil _).symm, .inr hStart⟩
    rintro t a u hLeads ⟨evs, hOwn, hSoFar⟩ hStep
    have hReach := hPool.leads hLeads
    obtain ⟨new, hNew, hMove⟩ := (ParameterizedPool.step_cases hStep).2.move
      (ParameterizedPool.fresh_of_reachable hReach) w
    refine ⟨evs ++ new, by rw [hNew, hOwn, List.append_assoc], ?_⟩
    rcases hSoFar with hEnter | hProgress
    · exact .inl (List.mem_append_left _ hEnter)
    · rcases hMove.progressed (ParameterizedPool.worker_ok hReach w).shape hProgress with
        hEnter | hNext
      · exact .inl (List.mem_append_right _ hEnter)
      · exact .inr hNext
  obtain ⟨evs', hOwn', hProgress⟩ := hRun
  obtain rfl : evs' = evs := List.append_cancel_left (hOwn'.symm.trans hWithin.records)
  exact hProgress.resolve_left hWithin.sameTurn

-- ---------------------------------------------------------------------------
-- The end of a call
-- ---------------------------------------------------------------------------

namespace Process

variable {s s' : Process n L} {w : Fin n} {e : Elem n (Consumer L)}

/-- The call of `e` ended: only the frame of the worker has moved, and every
packaged task other than the one of `e` is as before. -/
structure Ends (s s' : Process n L) (w : Fin n) (e : Elem n (Consumer L)) : Prop where
  pool : ∃ i k, (s.pool.workers w).pc = .invoking i k ∧
    s'.pool = s.pool.setWorker w ⟨.looping (i + 1) k, (s.pool.workers w).runnable⟩ [.finish e.id]
  heap : ∀ j, e.val ≠ .packaged j → s'.heap[j]? = s.heap[j]?

/-- What leaves the call a worker is inside of depends on its consumer only:
a packaged task has not been called before. -/
theorem call_escapes (h : (system n B L).Reachable s) (hCur : s.pool.current w = some e) :
    (e.val.call s.heap).1 = e.val.escapes := by
  cases hVal : e.val with
  | empty => rfl
  | function b => rw [call_function]; rfl
  | packaged j =>
    obtain ⟨t, hj, -, hPending, -⟩ :=
      ((futures_ok h).current (pool_reachable h) hCur).2 j hVal
    rw [call_packaged hj hPending]
    rfl

/-- A call whose consumer throws nothing can end, unless it is inside an
`await()`. -/
theorem invoke_ends (h : (system n B L).Reachable s) (hAlive : s.pool.abort = none)
    (hCur : s.pool.current w = some e) (hFree : ∀ j, s.pool.awaiting ≠ some (.worker w, j))
    (hQuiet : e.val.escapes = none) :
    ∃ s', s.step B (.invoke w) = some s' ∧ Ends s s' w e := by
  obtain ⟨i, k, hPc, -⟩ := ParameterizedPool.current_eq_some hCur
  have hNone := (call_escapes h hCur).trans hQuiet
  obtain ⟨heap, hCall⟩ : ∃ heap, e.val.call s.heap = (none, heap) := ⟨_, Prod.ext hNone rfl⟩
  have hAny : s.pool.awaiting.any (fun a => decide (a.1 = .worker w)) = false := by
    cases hAwait : s.pool.awaiting with
    | none => rfl
    | some a =>
      have hNe : a.1 ≠ .worker w := fun hEq => hFree a.2 (by rw [hAwait, ← hEq])
      simpa using hNe
  refine ⟨⟨s.pool.setWorker w ⟨.looping (i + 1) k, (s.pool.workers w).runnable⟩ [.finish e.id],
    heap⟩, ?_, ⟨i, k, hPc, rfl⟩, fun j hNe => ?_⟩
  · simp [Process.step, Process.invoke, hAlive, hCur, hCall, ParameterizedPool.taskReturn, hPc,
      hAny]
  · rcases call_heap hCall with rfl | ⟨i', t, hVal, -, -, -, rfl⟩
    · rfl
    · exact List.getElem?_set_ne fun hEq => hNe (hVal.trans (congrArg _ hEq))

/-- A call whose consumer throws ends the process. -/
theorem invoke_throws (h : (system n B L).Reachable s)
    (hCur : s.pool.current w = some e) {x : Exn L} (hThrow : e.val.escapes = some x)
    (hStep : s.step B (.invoke w) = some s') : s'.pool.abort = some .escaped := by
  have hSome := (call_escapes h hCur).trans hThrow
  cases step_cases hStep with
  | call op th _ hReady hCalls => cases hCalls
  | returned _ e' heap pool hCur' hCall =>
    rw [hCur, Option.some.injEq] at hCur'
    subst hCur'
    rw [hCall] at hSome
    simp at hSome
  | threw _ e' x' heap pool hCur' hCall hPool =>
    obtain rfl := (ParameterizedPool.step_cases hPool).2.throws
    rfl

/-- The test of the loop lets a filled slot be called, or ends the turn. -/
theorem loop_steps (h : (system n B L).Reachable s) (hAlive : s.pool.abort = none) {i k : Nat}
    (hPc : (s.pool.workers w).pc = .looping i k) :
    ∃ s', s.step B (.control (.loop w)) = some s' ∧ s'.pool.abort = none ∧
      if i < k then (s'.pool.workers w).pc = .invoking i k ∧
          (s'.pool.workers w).runnable = (s.pool.workers w).runnable ∧
          s'.pool.awaiting = s.pool.awaiting ∧
          ∃ e, own w s'.pool.hist = own w s.pool.hist ++ [.start e]
      else (s'.pool.workers w).pc = .check := by
  have hShape := (ParameterizedPool.worker_ok (pool_reachable h) w).shape
  -- below the counter the slot is filled, so the call can begin
  by_cases hLt : i < k
  · obtain ⟨e, hSlot⟩ := hShape.slot_of_looping hPc hLt
    refine ⟨⟨s.pool.setWorker w ⟨.invoking i k, (s.pool.workers w).runnable⟩ [.start e.id],
      (destroyed s.pool (.loop w)).foldl Consumer.destroy s.heap⟩, ?_, hAlive, ?_⟩
    · simp only [Process.step, ParameterizedPool.step, hAlive, Option.isSome_none,
        Bool.false_eq_true, if_false, ParameterizedPool.control, ParameterizedPool.loop, hPc,
        hLt, if_true, hSlot, Option.map_some]
    · rw [if_pos hLt]
      exact ⟨by simp, by simp, rfl, e.id, ParameterizedPool.own_setWorker ..⟩
  · refine ⟨⟨s.pool.setWorker w ⟨.check, []⟩ [],
      (destroyed s.pool (.loop w)).foldl Consumer.destroy s.heap⟩, ?_, hAlive, ?_⟩
    · simp only [Process.step, ParameterizedPool.step, hAlive, Option.isSome_none,
        Bool.false_eq_true, if_false, ParameterizedPool.control, ParameterizedPool.loop, hPc,
        hLt, Option.map_some]
    · rw [if_neg hLt]
      simp

end Process

-- ---------------------------------------------------------------------------
-- Getting through a batch
-- ---------------------------------------------------------------------------

/-- Worker `w`, at the first slot of a batch in `s`, gets through it. As long
as the process is alive and `w` has not begun another turn: it has called
slots of its batch in order, each once, and is at one of them or has called
them all; the call it is inside of can end, unless it awaits, with nothing
changed but its own frame and the future of its task; and the loop lets it
call the next slot, or return to the test of the flag. -/
def GetsThrough (B : Nat) (s : Process n L) (w : Fin n) : Prop :=
  ∀ s' evs, Within B s s' w evs →
    (evs <+: turn (s.pool.workers w).batch ∧
      ((∃ i k, (s'.pool.workers w).pc = .looping i k ∨ (s'.pool.workers w).pc = .invoking i k) ∨
        evs = turn (s.pool.workers w).batch)) ∧
    (∀ e, s'.pool.current w = some e → (∀ j, s'.pool.awaiting ≠ some (.worker w, j)) →
      ∃ s'', s'.step B (.invoke w) = some s'' ∧ Process.Ends s' s'' w e) ∧
    (∀ i k, (s'.pool.workers w).pc = .looping i k →
      ∃ s'', s'.step B (.control (.loop w)) = some s'' ∧ s''.pool.abort = none ∧
        (s''.pool.workers w).pc = if i < k then .invoking i k else .check)

/-- A step of the worker inside its turn. -/
theorem Within.snoc {s s' s'' : Process n L} {w : Fin n} {evs new : List WorkerEvent}
    {op : Process.Op n L} (h : Within B s s' w evs) (hStep : s'.step B op = some s'')
    (hAlive : s''.pool.abort = none) (hOwn : own w s''.pool.hist = own w s'.pool.hist ++ new)
    (hNot : .enter ∉ new) : Within B s s'' w (evs ++ new) where
  leads := h.leads.tail hStep
  alive := hAlive
  records := by rw [hOwn, h.records, List.append_assoc]
  sameTurn := by simp [h.sameTurn, hNot]

/-- A worker that gets through its batch comes to call every slot of it. -/
private theorem GetsThrough.reaches {s : Process n L} {w : Fin n} {k : Nat}
    (h : (Process.system n B L).Reachable s) (hAlive : s.pool.abort = none)
    (hPc : (s.pool.workers w).pc = .looping 0 k) (hThrough : GetsThrough B s w) (i : Nat)
    (hi : i < k) : ∃ s' evs, Within B s s' w evs ∧ (s'.pool.workers w).pc = .invoking i k ∧
      (s'.pool.workers w).runnable = (s.pool.workers w).runnable ∧
      ∀ j, s'.pool.awaiting ≠ some (.worker w, j) := by
  -- from the test of the loop into the call
  have hEnter : ∀ s' evs j, Within B s s' w evs → (s'.pool.workers w).pc = .looping j k → j < k →
      (s'.pool.workers w).runnable = (s.pool.workers w).runnable →
      ∃ s' evs, Within B s s' w evs ∧ (s'.pool.workers w).pc = .invoking j k ∧
        (s'.pool.workers w).runnable = (s.pool.workers w).runnable ∧
        ∀ j, s'.pool.awaiting ≠ some (.worker w, j) := by
    intro s' evs j hWithin hLoop hLt hSame
    have hReach := h.leads hWithin.leads
    obtain ⟨s'', hStep, hAlive'', hNext⟩ := Process.loop_steps hReach hWithin.alive hLoop
    rw [if_pos hLt] at hNext
    obtain ⟨hPc'', hSame'', hAwait'', e, hOwn''⟩ := hNext
    refine ⟨s'', _, hWithin.snoc hStep hAlive'' hOwn'' (by simp), hPc'', hSame''.trans hSame, ?_⟩
    intro j' hAwait
    -- who awaits is inside a call
    obtain ⟨i', k', hInside⟩ := ParameterizedPool.awaiting_invoking
      (Process.pool_reachable hReach) (hAwait''.symm.trans hAwait)
    rw [hLoop] at hInside
    simp at hInside
  induction i with
  | zero =>
    exact hEnter s [] 0 ⟨.refl s, hAlive, (List.append_nil _).symm, List.not_mem_nil⟩ hPc hi rfl
  | succ i ih =>
    obtain ⟨s', evs, hWithin, hPc', hSame', hFree'⟩ := ih (by omega)
    have hShape := (ParameterizedPool.worker_ok
      (Process.pool_reachable (h.leads hWithin.leads)) w).shape
    obtain ⟨e, hSlot⟩ := hShape.slot_of_invoking hPc'
    have hCur := ParameterizedPool.current_of_invoking hPc' hSlot
    obtain ⟨s'', hStep, ⟨i', k', hPc'', hPool⟩, -⟩ := (hThrough s' evs hWithin).2.1 _ hCur hFree'
    rw [hPc', Pc.invoking.injEq] at hPc''
    obtain ⟨rfl, rfl⟩ := hPc''
    have hAlive'' : s''.pool.abort = none := by
      rw [hPool]
      exact hWithin.alive
    have hOwn'' : own w s''.pool.hist = own w s'.pool.hist ++ [.finish e.id] := by
      rw [hPool]
      exact ParameterizedPool.own_setWorker ..
    refine hEnter s'' _ (i + 1) (hWithin.snoc hStep hAlive'' hOwn'' (by simp)) ?_ hi ?_
    · rw [hPool]
      simp
    · rw [hPool]
      simpa using hSame'

/-- A worker that gets through its batch calls all of it, so nothing leaves a
call. -/
theorem GetsThrough.quiet {s : Process n L} (h : (Process.system n B L).Reachable s) {w : Fin n}
    {k : Nat} (hAlive : s.pool.abort = none) (hPc : (s.pool.workers w).pc = .looping 0 k)
    (hThrough : GetsThrough B s w) {e : Elem n (Consumer L)}
    (he : e ∈ (s.pool.workers w).batch) : e.val.escapes = none := by
  have hShape := (ParameterizedPool.worker_ok (Process.pool_reachable h) w).shape
  obtain ⟨-, hBatch, -⟩ := hShape.looping hPc
  obtain ⟨i, hAt⟩ := List.mem_iff_getElem?.mp he
  obtain ⟨hLen, -⟩ := List.getElem?_eq_some_iff.mp hAt
  obtain ⟨s', evs, hWithin, hPc', hSame, hFree⟩ := hThrough.reaches h hAlive hPc i (by omega)
  have hCur : s'.pool.current w = some e := by
    refine ParameterizedPool.current_of_invoking hPc' ?_
    rw [hSame]
    exact hShape.slot_iff.mpr hAt
  -- the call of `e` ends, so nothing left it
  obtain ⟨s'', hStep, hEnds⟩ := (hThrough s' evs hWithin).2.1 e hCur hFree
  cases hEscape : e.val.escapes with
  | none => rfl
  | some x =>
    have hDead := Process.invoke_throws (h.leads hWithin.leads) hCur hEscape hStep
    obtain ⟨i', k', -, hPool⟩ := hEnds.pool
    rw [hPool] at hDead
    have hStill : s'.pool.abort = some .escaped := hDead
    rw [hWithin.alive] at hStill
    simp at hStill

/-- If nothing leaves a call of the batch the worker gets through it. -/
theorem getsThrough_of_quiet {s : Process n L} (h : (Process.system n B L).Reachable s) {w : Fin n}
    {k : Nat} (hPc : (s.pool.workers w).pc = .looping 0 k)
    (hQuiet : ∀ e ∈ (s.pool.workers w).batch, e.val.escapes = none) : GetsThrough B s w := by
  intro s' evs hWithin
  have hReach := h.leads hWithin.leads
  have hProgress := turn_of_within h hPc hWithin
  refine ⟨⟨hProgress.isPrefix, ?_⟩, fun e hCur hFree => ?_, fun i k' hLoop => ?_⟩
  · unfold Progressed at hProgress
    split at hProgress
    · next i k' hAt => exact .inl ⟨i, k', .inl hAt⟩
    · next i k' hAt => exact .inl ⟨i, k', .inr hAt⟩
    · exact .inr hProgress
    · exact .inr hProgress
    · exact hProgress.elim
  · -- the array is the one of `s`, so the call is of one of its elements
    obtain ⟨i, k', hPc', hSlot⟩ := ParameterizedPool.current_eq_some hCur
    simp only [Progressed, hPc'] at hProgress
    refine Process.invoke_ends hReach hWithin.alive hCur hFree (hQuiet e ?_)
    rw [hProgress.1] at hSlot
    exact List.mem_of_getElem? ((ParameterizedPool.worker_ok
      (Process.pool_reachable h) w).shape.slot_iff.mp hSlot)
  · obtain ⟨s'', hStep, hAlive'', hNext⟩ := Process.loop_steps hReach hWithin.alive hLoop
    refine ⟨s'', hStep, hAlive'', ?_⟩
    split
    · next hLt =>
      rw [if_pos hLt] at hNext
      exact hNext.1
    · next hGe =>
      rw [if_neg hGe] at hNext
      exact hNext

/-- **Exceptions in a worker.** A worker at the first slot of a batch gets
through it, in every interleaving, if and only if no exception leaves a call
of the batch: no bare function of it throws and none of it is empty. What
the packaged tasks of the batch do does not matter. -/
theorem exceptions_isolated {s : Process n L} (h : (Process.system n B L).Reachable s) {w : Fin n}
    {k : Nat} (hAlive : s.pool.abort = none) (hPc : (s.pool.workers w).pc = .looping 0 k) :
    GetsThrough B s w ↔ ∀ e ∈ (s.pool.workers w).batch, e.val.escapes = none :=
  ⟨fun hThrough _ he => hThrough.quiet h hAlive hPc he, getsThrough_of_quiet h hPc⟩

/-- A throwing task of `schedule` and a plain function in one batch. -/
def packagedThrower : Process 1 Process.natTypes :=
  ((Process.system 1 2 Process.natTypes).run (Process.system 1 2 Process.natTypes).init
    (Process.construct 1 ++
      [.schedule (.client 0) none (Process.thrower 5) [] faultless,
        .scheduleAndForget (.client 0) none (Process.adder 0) [] faultless, .control (.check only),
        .control (.dequeueElem only 0), .control (.dequeueElem only 0),
        .control (.dequeueReturn only)])).get rfl

theorem exceptions_isolated_packagedThrower : GetsThrough 2 packagedThrower 0 := by
  have hReach : (Process.system 1 2 Process.natTypes).Reachable packagedThrower :=
    System.Reachable.get _ rfl
  refine (exceptions_isolated (k := 2) hReach rfl rfl).mpr fun e he => ?_
  have hBatch : (packagedThrower.pool.workers 0).batch =
      [⟨0, .thread (.client 0), .packaged 0⟩,
        ⟨1, .thread (.client 0), .function ⟨Process.adder 0, []⟩⟩] := rfl
  rw [hBatch] at he
  simp only [List.mem_cons, List.not_mem_nil, or_false] at he
  rcases he with rfl | rfl <;> rfl

/-- The same with the throwing task accepted by `schedule_and_forget`. -/
def bareThrower : Process 1 Process.natTypes :=
  ((Process.system 1 2 Process.natTypes).run (Process.system 1 2 Process.natTypes).init
    (Process.construct 1 ++
      [.scheduleAndForget (.client 0) none (Process.thrower 5) [] faultless,
        .schedule (.client 0) none (Process.adder 0) [] faultless, .control (.check only),
        .control (.dequeueElem only 0), .control (.dequeueElem only 0),
        .control (.dequeueReturn only)])).get rfl

/-- Its exception leaves `worker()`: the process is terminated with the
other task of the batch not called and its future pending. -/
theorem bareThrower_terminates :
    ¬ GetsThrough 2 bareThrower 0 ∧
      ((Process.system 1 2 Process.natTypes).run bareThrower
        [.control (.loop 0), .invoke 0]).map (fun s => (s.pool.abort, begun s.pool.hist,
          s.heap.map fun t => t.shared.isPending)) = some (some .escaped, [0], [true]) := by
  refine ⟨fun hThrough => ?_, rfl⟩
  have hCalled := hThrough (((Process.system 1 2 Process.natTypes).run bareThrower
    [.control (.loop 0)]).get rfl) [.start 0] ⟨System.Leads.get _ _ rfl, rfl, rfl, by decide⟩
  obtain ⟨s'', hStep, ⟨i, k, -, hPool⟩, -⟩ := hCalled.2.1 _ rfl (fun _ => nofun)
  obtain rfl := Option.some.inj hStep
  exact absurd (congrArg ParameterizedPool.abort hPool) nofun

end ThreadPool.Model
