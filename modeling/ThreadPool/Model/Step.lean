import ThreadPool.Model.Impl

/-!
# ThreadPool — what one step does

`step_cases` inverts the step function of `Model/Impl.lean` once: `Step`
lists every way a step can go, with its guard and the state it leaves.
Later modules argue over `Step` and never unfold the step function.

Two readings with far fewer cases are derived from it:

* `Step.move` (`Model/Worker.lean`) — seen from one worker, a step is a move
  of the `worker()` loop or nothing;
* `Step.flow` (`Model/Dispatch.lean`) — seen from the queue, a step appends
  accepted elements, takes one element out, destroys the queue, or leaves it
  alone.
-/

namespace ThreadPool.Model

open ThreadPool.Lib

variable {n : Nat} {τ : Type}

namespace ParameterizedPool

-- ---------------------------------------------------------------------------
-- Inversion of the step function
-- ---------------------------------------------------------------------------

/-- Why a step ends the process. -/
inductive AbortCause (s : ParameterizedPool n τ) : Action n τ → Abort → Prop
  | growThrows (k : Nat) (hLife : s.life = .constructing k) :
      AbortCause s (.control .growThrows) .joinableDestroyed
  | unfilledSlot (w : Fin n) (i k : Nat) (hPc : (s.workers w).pc = .looping i k) (hLt : i < k)
      (hSlot : (s.workers w).runnable[i]? = some none) :
      AbortCause s (.control (.loop w)) .unfilledSlot
  | outOfBounds (w : Fin n) (i k : Nat) (hPc : (s.workers w).pc = .looping i k) (hLt : i < k)
      (hSlot : (s.workers w).runnable[i]? = none) :
      AbortCause s (.control (.loop w)) .outOfBounds
  | doneGone (w : Fin n) (hPc : (s.workers w).pc = .check) (hLife : s.life.doneAlive = false) :
      AbortCause s (.control (.check w)) .dangling
  | elemGone (w : Fin n) (i c : Nat) (hPc : (s.workers w).pc = .waiting c)
      (hLife : s.life.tasksAlive = false) : AbortCause s (.control (.dequeueElem w i)) .dangling
  | returnGone (w : Fin n) (c : Nat) (hPc : (s.workers w).pc = .waiting c)
      (hLife : s.life.tasksAlive = false) : AbortCause s (.control (.dequeueReturn w)) .dangling
  | joinable (c : Cause) (w : Fin n) (hLife : s.life = .teardown c .threads)
      (hThread : s.threads w = .joinable) :
      AbortCause s (.control .teardown) .joinableDestroyed
  | noexceptThrow (th : Thread n) (hCall : s.mayCall th = true) :
      AbortCause s (.noexceptThrow th) .noexceptThrow
  | escaped (w : Fin n) (e : Elem n τ) (hCur : s.current w = some e)
      (hFree : ∀ j, s.awaiting ≠ some (.worker w, j)) : AbortCause s (.taskThrow w) .escaped

/-- Every way a step can go. -/
inductive Step (B : Nat) (s : ParameterizedPool n τ) :
    Action n τ → ParameterizedPool n τ → Prop
  | spawn (k : Nat) (h : k < n) (hLife : s.life = .constructing k) :
      Step B s (.control .spawn) { s with
        threads := Function.update s.threads ⟨k, h⟩ .joinable
        workers := Function.update s.workers ⟨k, h⟩ ⟨.check, []⟩
        life := .constructing (k + 1) }
  | built (k : Nat) (h : n ≤ k) (hLife : s.life = .constructing k) :
      Step B s (.control .spawn) { s with life := .alive }
  | spawnThrows (k : Nat) (h : k < n) (hLife : s.life = .constructing k) :
      Step B s (.control .spawnThrows) { s with life := .teardown .ctor .done }
  | exit (w : Fin n) (hPc : (s.workers w).pc = .check) (hDone : s.done = true) :
      Step B s (.control (.check w)) (s.setWorker w ⟨.exited, (s.workers w).runnable⟩ [])
  | enter (w : Fin n) (hPc : (s.workers w).pc = .check) (hDone : s.done = false) :
      Step B s (.control (.check w))
        (s.setWorker w ⟨.waiting 0, List.replicate B none⟩ [.enter])
  | dequeueElem (w : Fin n) (i c : Nat) (e : Elem n τ) (hPc : (s.workers w).pc = .waiting c)
      (hElem : s.tasks[i]? = some e) (hRoom : c < B) (hLife : s.life.tasksAlive = true) :
      Step B s (.control (.dequeueElem w i))
        { s.setWorker w ⟨.waiting (c + 1), (s.workers w).runnable.set c (some e)⟩
            [.take e.id] with
          tasks := s.tasks.eraseIdx i }
  | dequeueReturn (w : Fin n) (c : Nat) (hPc : (s.workers w).pc = .waiting c) :
      Step B s (.control (.dequeueReturn w))
        (s.setWorker w ⟨.looping 0 c, (s.workers w).runnable⟩ [.dequeued c])
  | invoke (w : Fin n) (i k : Nat) (e : Elem n τ) (hPc : (s.workers w).pc = .looping i k)
      (hLt : i < k) (hSlot : (s.workers w).runnable[i]? = some (some e)) :
      Step B s (.control (.loop w))
        (s.setWorker w ⟨.invoking i k, (s.workers w).runnable⟩ [.start e.id])
  | again (w : Fin n) (i k : Nat) (hPc : (s.workers w).pc = .looping i k) (hGe : k ≤ i) :
      Step B s (.control (.loop w)) (s.setWorker w ⟨.check, []⟩ [])
  | taskReturn (w : Fin n) (i k : Nat) (e : Elem n τ) (hPc : (s.workers w).pc = .invoking i k)
      (hSlot : (s.workers w).runnable[i]? = some (some e))
      (hFree : ∀ j, s.awaiting ≠ some (.worker w, j)) :
      Step B s (.taskReturn w)
        (s.setWorker w ⟨.looping (i + 1) k, (s.workers w).runnable⟩ [.finish e.id])
  | stop (th : Thread n) (hCall : s.mayCall th = true) :
      Step B s (.control (.stop th)) { s with done := true }
  | await (th : Thread n) (hCall : s.mayCall th = true) (hNone : s.awaiting = none) :
      Step B s (.control (.await th))
        { s with awaiting := some (th, 0), hist := s.hist ++ [.await th] }
  | joined (th : Thread n) (i : Nat) (h : i < n) (hAwait : s.awaiting = some (th, i))
      (hThread : s.threads ⟨i, h⟩ = .joinable) (hExit : (s.workers ⟨i, h⟩).pc = .exited)
      (hSelf : th ≠ .worker ⟨i, h⟩) :
      Step B s (.control .join) { s with
        threads := Function.update s.threads ⟨i, h⟩ .joined
        awaiting := some (th, i + 1) }
  | joinThrows (th : Thread n) (i : Nat) (h : i < n) (hAwait : s.awaiting = some (th, i))
      (hThrow : s.threads ⟨i, h⟩ = .joinable → th = .worker ⟨i, h⟩) :
      Step B s (.control .join) (s.leaveAwait (.awaitThrew th))
  | awaited (th : Thread n) (i : Nat) (h : n ≤ i) (hAwait : s.awaiting = some (th, i)) :
      Step B s (.control .join) (s.leaveAwait (.awaited th))
  | destroy (k : Nat) (hLife : s.life = .alive) (hNone : s.awaiting = none) :
      Step B s (.control (.destroy k)) { s with
        done := true
        life := .destructing
        awaiting := some (.client k, 0)
        hist := s.hist ++ [.await (.client k)] }
  | teardownDone (c : Cause) (hLife : s.life = .teardown c .done) :
      Step B s (.control .teardown) { s with life := .teardown c .tasks }
  | teardownTasks (c : Cause) (hLife : s.life = .teardown c .tasks) :
      Step B s (.control .teardown)
        { s with tasks := [], dropped := s.dropped ++ s.tasks, life := .teardown c .threads }
  | teardownThreads (c : Cause) (hLife : s.life = .teardown c .threads)
      (hThreads : ∀ w, s.threads w ≠ .joinable) :
      Step B s (.control .teardown) { s with life := .gone c }
  | enqueue (th : Thread n) (token : Option Nat) (vs : List τ) (hCall : s.mayCall th = true) :
      Step B s (.enqueue th token vs) (s.enqueue (th.producer token) vs)
  | abort (a : Action n τ) (r : Abort) (hCause : AbortCause s a r) : Step B s a (s.kill r)

variable {B : Nat} {s s' : ParameterizedPool n τ}

@[simp] theorem setWorker_self (s : ParameterizedPool n τ) (w : Fin n) (x : Worker n τ)
    (evs : List WorkerEvent) : (s.setWorker w x evs).workers w = x :=
  Function.update_self ..

theorem setWorker_of_ne {v w : Fin n} (hNe : v ≠ w) (x : Worker n τ) (evs : List WorkerEvent) :
    (s.setWorker w x evs).workers v = s.workers v :=
  Function.update_of_ne hNe ..

theorem current_eq_some {w : Fin n} {e : Elem n τ} (h : s.current w = some e) :
    ∃ i k, (s.workers w).pc = .invoking i k ∧ (s.workers w).runnable[i]? = some (some e) := by
  unfold current at h
  split at h
  · next i k hPc => exact ⟨i, k, hPc, Option.join_eq_some_iff.mp h⟩
  · simp at h

theorem current_of_invoking {w : Fin n} {i k : Nat} {e : Elem n τ}
    (hPc : (s.workers w).pc = .invoking i k)
    (hSlot : (s.workers w).runnable[i]? = some (some e)) : s.current w = some e := by
  unfold current
  rw [hPc]
  exact Option.join_eq_some_iff.mpr hSlot

private theorem not_awaiting {th : Thread n}
    (h : ¬ (s.awaiting.any fun a => decide (a.1 = th)) = true) (j : Nat) :
    s.awaiting ≠ some (th, j) := by
  intro hEq
  apply h
  rw [hEq]
  simp

theorem check_cases {w : Fin n} (h : s.check B w = some s') :
    Step B s (.control (.check w)) s' := by
  unfold check at h
  split at h
  · next hPc =>
    split at h
    · split at h
      · next hDone => cases h; exact .exit w hPc hDone
      · next hDone => cases h; exact .enter w hPc (by simpa using hDone)
    · next hLife => cases h; exact .abort _ _ (.doneGone w hPc (by simpa using hLife))
  · simp at h

theorem dequeueElem_cases {w : Fin n} {i : Nat} (h : s.dequeueElem B w i = some s') :
    Step B s (.control (.dequeueElem w i)) s' := by
  unfold dequeueElem at h
  split at h
  · next c hPc =>
    split at h
    · next hLife =>
      split at h
      · next e hElem =>
        split at h
        · next hRoom => cases h; exact .dequeueElem w i c e hPc hElem hRoom hLife
        · simp at h
      · simp at h
    · next hLife => cases h; exact .abort _ _ (.elemGone w i c hPc (by simpa using hLife))
  · simp at h

theorem dequeueReturn_cases {w : Fin n} (h : s.dequeueReturn w = some s') :
    Step B s (.control (.dequeueReturn w)) s' := by
  unfold dequeueReturn at h
  split at h
  · next c hPc =>
    split at h
    · cases h; exact .dequeueReturn w c hPc
    · next hLife => cases h; exact .abort _ _ (.returnGone w c hPc (by simpa using hLife))
  · simp at h

theorem loop_cases {w : Fin n} (h : s.loop w = some s') : Step B s (.control (.loop w)) s' := by
  unfold loop at h
  split at h
  · next i k hPc =>
    split at h
    · next hLt =>
      split at h
      · next e hSlot => cases h; exact .invoke w i k e hPc hLt hSlot
      · next hSlot => cases h; exact .abort _ _ (.unfilledSlot w i k hPc hLt hSlot)
      · next hSlot => cases h; exact .abort _ _ (.outOfBounds w i k hPc hLt hSlot)
    · next hGe => cases h; exact .again w i k hPc (by omega)
  · simp at h

theorem taskReturn_cases {w : Fin n} (h : s.taskReturn w = some s') :
    Step B s (.taskReturn w) s' := by
  unfold taskReturn at h
  split at h
  · next i k e hPc hCur =>
    split at h
    · simp at h
    · next hFree =>
      cases h
      obtain ⟨i', k', hPc', hSlot⟩ := current_eq_some hCur
      rw [hPc] at hPc'
      cases hPc'
      exact .taskReturn w i k e hPc hSlot (not_awaiting hFree)
  · simp at h

theorem join_cases (h : s.join = some s') : Step B s (.control .join) s' := by
  unfold join at h
  split at h
  · next th i hAwait =>
    split at h
    · next hLt =>
      split at h
      · next hThread =>
        split at h
        · next hSelf => cases h; exact .joinThrows th i hLt hAwait fun _ => hSelf
        · next hSelf =>
          split at h
          · next hExit => cases h; exact .joined th i hLt hAwait hThread hExit hSelf
          · simp at h
      · next hThread => cases h; exact .joinThrows th i hLt hAwait fun hEq => absurd hEq hThread
    · next hGe => cases h; exact .awaited th i (by omega) hAwait
  · simp at h

theorem teardown_cases (h : s.teardown = some s') : Step B s (.control .teardown) s' := by
  unfold teardown at h
  split at h
  · next c hLife => cases h; exact .teardownDone c hLife
  · next c hLife => cases h; exact .teardownTasks c hLife
  · next c hLife =>
    split at h
    · next hEx =>
      cases h
      obtain ⟨w, hThread⟩ := hEx
      exact .abort _ _ (.joinable c w hLife hThread)
    · next hEx => cases h; exact .teardownThreads c hLife fun w hw => hEx ⟨w, hw⟩
  · simp at h

theorem spawn_cases (h : s.spawn = some s') : Step B s (.control .spawn) s' := by
  unfold spawn at h
  split at h
  · next k hLife =>
    split at h
    · next hLt => cases h; exact .spawn k hLt hLife
    · next hGe => cases h; exact .built k (by omega) hLife
  · simp at h

theorem control_cases {c : Control n} (h : s.control B c = some s') :
    Step B s (.control c) s' := by
  cases c with
  | spawn => exact spawn_cases h
  | spawnThrows =>
    simp only [control, spawnThrows] at h
    split at h
    · next k hLife =>
      split at h
      · next hLt => cases h; exact .spawnThrows k hLt hLife
      · simp at h
    · simp at h
  | growThrows =>
    simp only [control, growThrows] at h
    split at h
    · next k hLife =>
      split at h
      · cases h; exact .abort _ _ (.growThrows k hLife)
      · simp at h
    · simp at h
  | check w => exact check_cases h
  | dequeueElem w i => exact dequeueElem_cases h
  | dequeueReturn w => exact dequeueReturn_cases h
  | loop w => exact loop_cases h
  | stop th =>
    simp only [control, ParameterizedPool.stop] at h
    split at h
    · next hCall => cases h; exact .stop th hCall
    · simp at h
  | await th =>
    simp only [control, ParameterizedPool.await] at h
    split at h
    · next hCall =>
      cases h
      rw [Bool.and_eq_true, Option.isNone_iff_eq_none] at hCall
      exact .await th hCall.1 hCall.2
    · simp at h
  | join => exact join_cases h
  | destroy k =>
    simp only [control, ParameterizedPool.destroy] at h
    split at h
    · next hPre => cases h; exact .destroy k hPre.1 hPre.2
    · simp at h
  | teardown => exact teardown_cases h

/-- **Inversion.** A step starts in a live process and is one of `Step`. -/
theorem step_cases {a : Action n τ} (h : s.step B a = some s') :
    s.abort = none ∧ Step B s a s' := by
  unfold step at h
  split at h
  · simp at h
  · next hAbort =>
    refine ⟨by simpa using hAbort, ?_⟩
    cases a with
    | control c => exact control_cases h
    | enqueue th token vs =>
      dsimp only at h
      split at h
      · next hCall => cases h; exact .enqueue th token vs hCall
      · simp at h
    | noexceptThrow th =>
      dsimp only at h
      split at h
      · next hCall => cases h; exact .abort _ _ (.noexceptThrow th hCall)
      · simp at h
    | taskReturn w => exact taskReturn_cases h
    | taskThrow w =>
      simp only [taskThrow] at h
      split at h
      · next e hCur =>
        split at h
        · simp at h
        · next hFree => cases h; exact .abort _ _ (.escaped w e hCur (not_awaiting hFree))
      · simp at h

end ParameterizedPool

end ThreadPool.Model
