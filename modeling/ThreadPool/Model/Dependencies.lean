import Mathlib.Data.Finset.Card
import ThreadPool.Lib.WaitsFor
import ThreadPool.Model.Futures

/-!
# ThreadPool — tasks that wait for futures

A task may wait for the future of another task before it ends. The worker it
runs on is blocked meanwhile, and with it the rest of the batch the worker
has taken: no other worker can reach a slot of that array.

The state is stuck when a task is unfinished and every worker is blocked or
waits on an empty queue. Without a cycle of waits, and with fewer waiting
tasks than workers:

* `Stuck.tasks_nil` — the queue is empty, for some worker is not blocked;
* `Stuck.placed` — so every unfinished task is on a blocked worker: being
  called, or in a slot of its batch that is still to be called;
* `dependent_tasks` — a stuck state has a task stranded in such a slot that
  a blocked worker waits for. With `BULK_MAX_ITEMS = 1` there is no such
  slot, and no state is stuck.
-/

namespace ThreadPool.Model

open ThreadPool.Lib
open Process (first second)

namespace Process

variable {n B : Nat} {L : Types}

-- ---------------------------------------------------------------------------
-- The model
-- ---------------------------------------------------------------------------

/-- The call of `schedule` whose task worker `w` is inside of. -/
def calling (s : Process n L) (w : Fin n) : Option Nat :=
  match (s.pool.current w).map Elem.val with
  | some (.packaged i) => some i
  | _ => none

/-- The task of call `i` ends only after the future of call `waits i` is
resolved. Nobody stops the pool. -/
def heeds (waits : Nat → Option Nat) (s : Process n L) : Op n L → Bool
  | .invoke w => ((s.calling w).bind waits).all fun j =>
      (s.heap[j]?).any fun t => !t.shared.isPending
  | .control (.stop _) => false
  | .control (.destroy _) => false
  | _ => true

/-- The process with tasks that wait for one another. -/
def dependent (n B : Nat) (L : Types) (waits : Nat → Option Nat) :
    System (Process n L) (Op n L) :=
  (system n B L).restrict (heeds waits)

variable {waits : Nat → Option Nat} {s : Process n L} {w : Fin n}

/-- Worker `w` is inside a task that waits for future `j`, which is pending. -/
def BlockedOn (waits : Nat → Option Nat) (s : Process n L) (w : Fin n) (j : Nat) : Prop :=
  ∃ i, s.calling w = some i ∧ waits i = some j ∧ ∃ t, s.heap[j]? = some t ∧ t.shared = .pending

/-- An accepted task is unfinished, and every worker is blocked or waits on
an empty queue. -/
structure Stuck (waits : Nat → Option Nat) (s : Process n L) : Prop where
  unfinished : ∃ t < s.pool.accepted.length, ¬ Finished s.pool.hist t
  halted : ∀ w, (∃ j, BlockedOn waits s w j) ∨
    (s.pool.workers w).pc = .waiting 0 ∧ s.pool.tasks = []

/-- The accepted calls of `schedule` whose tasks wait. -/
def waiters (waits : Nat → Option Nat) (s : Process n L) : Finset Nat :=
  (Finset.range s.heap.length).filter fun i => (waits i).isSome

/-- A blocked worker waits for a task that sits in a slot still to be called
of the batch of a blocked worker. -/
def Stranded (waits : Nat → Option Nat) (s : Process n L) : Prop :=
  ∃ v w j e, BlockedOn waits s v j ∧ (∃ j', BlockedOn waits s w j') ∧
    e ∈ (s.pool.workers w).pending ∧ e.val = .packaged j

-- ---------------------------------------------------------------------------
-- The tasks being called
-- ---------------------------------------------------------------------------

theorem calling_of_current {e : Elem n (Consumer L)} {i : Nat} (hCur : s.pool.current w = some e)
    (hVal : e.val = .packaged i) : s.calling w = some i := by
  simp [calling, hCur, hVal]

theorem calling_cases (h : (system n B L).Reachable s) {i : Nat} (hCalling : s.calling w = some i) :
    ∃ e t, s.pool.current w = some e ∧ s.heap[i]? = some t ∧ t.task = e.id := by
  unfold calling at hCalling
  split at hCalling
  · next i' hEq =>
    obtain ⟨e, hCur, hVal⟩ := Option.map_eq_some_iff.mp hEq
    obtain ⟨t, hi, hTask, -, -⟩ := ((futures_ok h).current (pool_reachable h) hCur).2 i' hVal
    rw [Option.some.injEq] at hCalling
    exact ⟨e, t, hCur, hCalling ▸ hi, hTask⟩
  · simp at hCalling

/-- No two workers are inside the same task. -/
theorem calling_unique (h : (system n B L).Reachable s) {w' : Fin n} {i : Nat}
    (hw : s.calling w = some i) (hw' : s.calling w' = some i) : w = w' := by
  obtain ⟨e, t, hCur, hi, hTask⟩ := calling_cases h hw
  obtain ⟨e', t', hCur', hi', hTask'⟩ := calling_cases h hw'
  rw [hi, Option.some.injEq] at hi'
  subst hi'
  have hAt : Located s.pool e.id (.invoked w) := ⟨e, hCur, rfl⟩
  have hAt' : Located s.pool e.id (.invoked w') := ⟨e', hCur', hTask'.symm.trans hTask⟩
  simpa using ParameterizedPool.located_unique (pool_reachable h) hAt hAt'

theorem BlockedOn.invoking (h : (system n B L).Reachable s) {j : Nat}
    (hBlocked : BlockedOn waits s w j) : ∃ i k, (s.pool.workers w).pc = .invoking i k := by
  obtain ⟨i, hCalling, -⟩ := hBlocked
  obtain ⟨e, -, hCur, -⟩ := calling_cases h hCalling
  obtain ⟨i, k, hPc, -⟩ := ParameterizedPool.current_eq_some hCur
  exact ⟨i, k, hPc⟩

/-- The task a worker is blocked on is accepted and unfinished. -/
theorem BlockedOn.unfinished (h : (system n B L).Reachable s) {j : Nat}
    (hBlocked : BlockedOn waits s w j) :
    ∃ e : Elem n (Consumer L), s.pool.accepted[e.id]? = some e ∧ e.val = .packaged j ∧
      ¬ Finished s.pool.hist e.id := by
  obtain ⟨-, -, -, t, hj, hPending⟩ := hBlocked
  have hEntry := (futures_ok h).entry j t hj
  obtain ⟨e, hAt, hVal⟩ := hEntry.linked
  have hName := (ParameterizedPool.conserved (pool_reachable h)).accepted_get
    (List.mem_of_getElem? hAt)
  have hId : t.task = e.id := (futures_ok h).entry_of hName hVal hj
  refine ⟨e, hId ▸ hAt, hVal, fun hFinished => ?_⟩
  have hReady := hEntry.finished (hId ▸ hFinished)
  rw [hPending] at hReady
  simp at hReady

-- ---------------------------------------------------------------------------
-- Stuck states
-- ---------------------------------------------------------------------------

/-- While nobody stops the pool it is under construction or alive. -/
theorem dependent_life (h : (dependent n B L waits).Reachable s) :
    s.pool.life.fromCtor = true ∨ s.pool.life = .alive := by
  refine System.Reachable.induction (P := fun s : Process n L =>
    s.pool.life.fromCtor = true ∨ s.pool.life = .alive) (.inl rfl) ?_ h
  intro s op s' _ hOld hStep
  obtain ⟨hHeeds, hPlain⟩ := System.restrict_step.mp hStep
  rcases (step_cases hPlain).pool with hEq | ⟨a, hPool, hSame⟩
  · rwa [hEq]
  have hCases := (ParameterizedPool.step_cases hPool).2
  generalize s'.pool = pool at hCases ⊢
  cases hCases with
  | spawn | spawnThrows => exact .inl rfl
  | built => exact .inr rfl
  | joinThrows | awaited =>
    have hNot : s.pool.life ≠ .destructing := by
      rcases hOld with hCtor | hAlive
      · rintro hEq
        simp [hEq, Life.fromCtor] at hCtor
      · simp [hAlive]
    simpa [ParameterizedPool.leaveAwait, hNot] using hOld
  | destroy k =>
    rw [hSame _ rfl] at hHeeds
    simp [heeds] at hHeeds
  | teardownDone c hLife | teardownTasks c hLife | teardownThreads c hLife =>
    -- only a constructor that threw tears members down
    cases c <;> simp_all [Life.fromCtor]
  | _ => exact hOld

theorem Stuck.tasksAlive (hStuck : Stuck waits s) (h : (dependent n B L waits).Reachable s) :
    s.pool.life.tasksAlive = true := by
  obtain ⟨t, ht, -⟩ := hStuck.unfinished
  rcases dependent_life h with hCtor | hAlive
  · rw [(ParameterizedPool.unbuilt (pool_reachable h.of_restrict) hCtor).accepted] at ht
    exact absurd ht (Nat.not_lt_zero t)
  · simp [hAlive, Life.tasksAlive]

/-- With fewer waiting tasks than workers one worker is not blocked. -/
theorem Stuck.tasks_nil (hStuck : Stuck waits s) (h : (system n B L).Reachable s)
    (hFew : (waiters waits s).card < n) : s.pool.tasks = [] := by
  by_contra hNonempty
  have hBlocked : ∀ w, ∃ i, s.calling w = some i ∧ (waits i).isSome = true := by
    intro w
    obtain ⟨j, i, hCalling, hWaits, -⟩ :=
      (hStuck.halted w).resolve_right fun hIdle => hNonempty hIdle.2
    exact ⟨i, hCalling, by rw [hWaits]; rfl⟩
  choose task hCalling hWaits using hBlocked
  -- every worker is inside a waiting task of its own
  have hMaps : ∀ w ∈ Finset.univ, task w ∈ waiters waits s := by
    intro w _
    obtain ⟨e, t, -, hi, -⟩ := calling_cases h (hCalling w)
    simp only [waiters, Finset.mem_filter, Finset.mem_range]
    exact ⟨(List.getElem?_eq_some_iff.mp hi).1, hWaits w⟩
  have hInj : Set.InjOn task (Finset.univ : Finset (Fin n)) := by
    intro w _ w' _ hEq
    exact calling_unique h (hCalling w) (hEq ▸ hCalling w')
  have hCard := Finset.card_le_card_of_injOn task hMaps hInj
  rw [Finset.card_univ, Fintype.card_fin] at hCard
  omega

/-- Every unfinished task is on a blocked worker. -/
theorem Stuck.placed (hStuck : Stuck waits s) (h : (system n B L).Reachable s)
    (hAlive : s.pool.life.tasksAlive = true) (hEmpty : s.pool.tasks = []) {t : Nat}
    (ht : t < s.pool.accepted.length) (hNot : ¬ Finished s.pool.hist t) :
    ∃ w e, (∃ j, BlockedOn waits s w j) ∧ e.id = t ∧
      (s.pool.current w = some e ∨ e ∈ (s.pool.workers w).pending) := by
  have hPool := pool_reachable h
  obtain ⟨p, hAt⟩ := ParameterizedPool.located_exists hPool hAlive ht
  -- the place cannot be the queue, which is empty, nor the past
  cases p with
  | queue i =>
    obtain ⟨e, hTask, -⟩ := hAt
    simp [hEmpty] at hTask
  | slot w i =>
    have hShape := (ParameterizedPool.worker_ok hPool w).shape
    have hMem := List.mem_of_getElem? ((ParameterizedPool.located_slot hShape).mp hAt).2
    obtain ⟨e, hPending, hId⟩ := List.mem_map.mp hMem
    rcases hStuck.halted w with hBlocked | ⟨hPc, -⟩
    · exact ⟨w, e, hBlocked, hId, .inr hPending⟩
    · -- a worker that waits on the queue has taken nothing yet
      obtain ⟨-, hNone⟩ := hShape.waiting hPc
      rw [Worker.pending, List.eq_nil_of_length_eq_zero hNone, List.drop_nil] at hPending
      exact absurd hPending List.not_mem_nil
  | invoked w =>
    obtain ⟨e, hCur, hId⟩ := hAt
    rcases hStuck.halted w with hBlocked | ⟨hPc, -⟩
    · exact ⟨w, e, hBlocked, hId, .inl hCur⟩
    · obtain ⟨i, k, hPc', -⟩ := ParameterizedPool.current_eq_some hCur
      rw [hPc] at hPc'
      simp at hPc'
  | finished => exact absurd hAt hNot

/-- A stuck state without a cycle has a stranded task: a blocked worker waits
for a task that is not being called. -/
theorem Stuck.stranded (hStuck : Stuck waits s) (h : (system n B L).Reachable s)
    (hAlive : s.pool.life.tasksAlive = true) (hEmpty : s.pool.tasks = [])
    (hAcyclic : Acyclic waits) : Stranded waits s := by
  have hPlaced := fun t => hStuck.placed h hAlive hEmpty (t := t)
  -- the tasks that blocked workers are inside of
  let S : Set Nat := {i | ∃ w j, s.calling w = some i ∧ BlockedOn waits s w j}
  have hFinite : S.Finite := by
    refine (Set.finite_lt_nat s.heap.length).subset ?_
    rintro i ⟨w, j, hCalling, -⟩
    obtain ⟨e, t, -, hi, -⟩ := calling_cases h hCalling
    exact (List.getElem?_eq_some_iff.mp hi).1
  have hNonempty : S.Nonempty := by
    obtain ⟨t, ht, hNot⟩ := hStuck.unfinished
    obtain ⟨w, -, ⟨j, hBlocked⟩, -⟩ := hPlaced t ht hNot
    obtain ⟨i, hCalling, -⟩ := id hBlocked
    exact ⟨i, w, j, hCalling, hBlocked⟩
  obtain ⟨i, ⟨v, j, hCalling, hBlocked⟩, hFree⟩ := hAcyclic.exists_free hFinite hNonempty
  -- the one that waits for none of them waits for a task in a slot
  obtain ⟨i', hCalling', hWaits, -⟩ := id hBlocked
  rw [hCalling, Option.some.injEq] at hCalling'
  subst hCalling'
  obtain ⟨e, hAt, hVal, hNot⟩ := hBlocked.unfinished h
  obtain ⟨w, e', hBlocked', hId, hWhere⟩ :=
    hPlaced e.id (List.getElem?_eq_some_iff.mp hAt).1 hNot
  -- the element on the worker is the one the future belongs to
  have hBatch : e' ∈ (s.pool.workers w).batch := by
    rcases hWhere with hCur | hPending
    · exact ParameterizedPool.current_mem_batch (pool_reachable h) hCur
    · exact List.mem_of_mem_drop hPending
  have hAt' := ParameterizedPool.held_accepted (pool_reachable h) (.inr (.inl ⟨w, hBatch⟩))
  rw [hId, hAt, Option.some.injEq] at hAt'
  subst hAt'
  rcases hWhere with hCur | hPending
  · obtain ⟨j', hOn⟩ := hBlocked'
    exact absurd hWaits (hFree j ⟨w, j', calling_of_current hCur hVal, hOn⟩)
  · exact ⟨v, w, j, e, hBlocked, hBlocked', hPending, hVal⟩

/-- A batch of one has no slot after the one being called. -/
theorem Stranded.bulk (hStranded : Stranded waits s) (h : (system n B L).Reachable s) : 2 ≤ B := by
  obtain ⟨v, w, j, e, -, ⟨j', hBlocked⟩, hPending, -⟩ := hStranded
  obtain ⟨i, k, hPc⟩ := hBlocked.invoking h
  obtain ⟨hFilled, hLength, hLt⟩ :=
    (ParameterizedPool.worker_ok (pool_reachable h) w).shape.invoking hPc
  have hRoom := hFilled.le
  simp only [Worker.pending, Worker.cursor, hPc] at hPending
  -- a slot behind the one being called
  have hLen := List.length_pos_of_mem hPending
  rw [List.length_drop] at hLen
  omega

end Process

/-- **Tasks that wait.** Let the waits have no cycle and fewer accepted tasks
wait than there are workers. A reachable state in which a task is unfinished
while every worker is blocked or waits on an empty queue has a stranded task:
a blocked worker waits for a task in a slot, still to be called, of the batch
of a blocked worker. With `BULK_MAX_ITEMS = 1` no such state is reachable. -/
theorem dependent_tasks {n B : Nat} {L : Types} {waits : Nat → Option Nat} {s : Process n L}
    (h : (Process.dependent n B L waits).Reachable s) (hAcyclic : Acyclic waits)
    (hFew : (Process.waiters waits s).card < n) :
    (Process.Stuck waits s → Process.Stranded waits s) ∧ (B = 1 → ¬ Process.Stuck waits s) := by
  have hStrands : Process.Stuck waits s → Process.Stranded waits s := fun hStuck =>
    hStuck.stranded h.of_restrict (hStuck.tasksAlive h) (hStuck.tasks_nil h.of_restrict hFew)
      hAcyclic
  refine ⟨hStrands, fun hOne hStuck => ?_⟩
  have hBulk := (hStrands hStuck).bulk h.of_restrict
  omega

/-- The first call waits for the second. -/
def firstWaits : Nat → Option Nat
  | 0 => some 1
  | _ => none

theorem firstWaits_acyclic : Acyclic firstWaits := by
  refine .of_rank (fun i => 1 - i) fun a b hWaits => ?_
  cases a with
  | zero =>
    obtain rfl := Option.some.inj hWaits
    exact Nat.zero_lt_one
  | succ a => simp [firstWaits] at hWaits

/-- Both tasks are taken in one batch, and the first of them is called; the
other worker waits on the empty queue. -/
def oneBatchBlocked : Process 2 Process.natTypes :=
  ((Process.dependent 2 2 Process.natTypes firstWaits).run
    (Process.dependent 2 2 Process.natTypes firstWaits).init
    (Process.construct 2 ++
      [.schedule (.client 0) none (Process.adder 0) [] faultless,
        .schedule (.client 0) none (Process.adder 1) [] faultless] ++
      Process.takeBatch first 2 ++ [.control (.check second)])).get rfl

theorem stuck_oneBatchBlocked : Process.Stuck firstWaits oneBatchBlocked where
  unfinished := ⟨1, by decide, by
    rintro ⟨w, hMem⟩
    revert w
    decide⟩
  halted := Fin.forall_fin_two.mpr
    ⟨.inl ⟨1, 0, rfl, rfl, _, rfl, rfl⟩, .inr ⟨rfl, rfl⟩⟩

theorem dependent_tasks_oneBatchBlocked : Process.Stranded firstWaits oneBatchBlocked :=
  (dependent_tasks (System.Reachable.get _ rfl) firstWaits_acyclic (by decide)).1
    stuck_oneBatchBlocked

/-- With two elements in a batch a stuck state is reachable: a task and the
one it waits for are taken together. -/
theorem oneBatch_stuck :
    ¬ ∀ (waits : Nat → Option Nat) (s : Process 2 Process.natTypes), Acyclic waits →
      (Process.dependent 2 2 Process.natTypes waits).Reachable s →
      (Process.waiters waits s).card < 2 → ¬ Process.Stuck waits s := by
  intro hNever
  exact hNever firstWaits oneBatchBlocked firstWaits_acyclic (System.Reachable.get _ rfl)
    (by decide) stuck_oneBatchBlocked

end ThreadPool.Model
