import ThreadPool.Model.Dispatch

/-!
# ThreadPool — order of the tasks of one producer

The vendored queue keeps one FIFO sub-queue per producer. Under that
assumption (`fifo`: a dequeue takes the first queued element of some
producer) the tasks of a producer leave the queue in the order they were
accepted in, whoever takes them; and a worker begins a call only when all
its earlier calls are finished.

* `ordered` — the order of queue and taken tasks, in every reachable state;
* `calls_sequential` — one call at a time, over the history of a worker;
* `producer_order` — if one worker takes two tasks of a producer, the one
  accepted first is finished before the other begins.
-/

namespace ThreadPool.Model

open ThreadPool.Lib
open Process (only)

variable {n : Nat} {τ : Type}

/-- The assumption on the queue: the element taken is the first of its
producer. -/
def fifo (s : ParameterizedPool n τ) : Control n → Bool
  | .dequeueElem _ i =>
    match s.tasks[i]? with
    | some e => (s.tasks.take i).all fun e' => e'.producer ≠ e.producer
    | none => true
  | _ => true

namespace ParameterizedPool

variable {B : Nat} {s s' : ParameterizedPool n τ}

/-- The producer of an accepted task. -/
def producerOf (s : ParameterizedPool n τ) (t : Nat) : Option (Producer n) :=
  s.accepted[t]?.map Elem.producer

-- ---------------------------------------------------------------------------
-- The order of the queue
-- ---------------------------------------------------------------------------

/-- The queue is in the order of acceptance, and for each producer the taken
tasks come before the rest, in order. -/
structure Ordered (s : ParameterizedPool n τ) : Prop where
  queue : s.tasks.Pairwise fun e e' => e.id < e'.id
  ahead : ∀ t ∈ taken s.hist, ∀ e, e ∈ s.tasks ∨ e ∈ s.dropped →
    s.producerOf t = some e.producer → t < e.id
  taken : (taken s.hist).Pairwise fun t t' => s.producerOf t = s.producerOf t' → t < t'

theorem Conserved.lt_of_taken (h : s.Conserved) {t : Nat} (ht : t ∈ Model.taken s.hist) :
    t < s.accepted.length := by
  rw [← List.mem_range, ← h.perm.mem_iff]
  exact List.mem_append_left _ (List.mem_append_right _ ht)

theorem Conserved.lt_of_queued (h : s.Conserved) {e : Elem n τ} (he : e ∈ s.tasks) :
    e.id < s.accepted.length := by
  rw [← List.mem_range, ← h.perm.mem_iff]
  exact List.mem_append_left _ (List.mem_append_left _ (List.mem_map_of_mem he))

/-- Accepting more does not change who produced what. -/
theorem producerOf_enqueue {p : Producer n} {vs : List τ} {t : Nat}
    (ht : t < s.accepted.length) : (s.enqueue p vs).producerOf t = s.producerOf t := by
  simp only [producerOf, enqueue]
  rw [List.getElem?_append_left ht]

private theorem pairwise_number (base : Nat) (p : Producer n) (vs : List τ) :
    (number base p vs).Pairwise fun e e' => e.id < e'.id := by
  have hIds : ((number base p vs).map Elem.id).Pairwise (· < ·) := by
    rw [number_ids]
    exact List.pairwise_lt_range'
  exact List.pairwise_map.mp hIds

/-- Elements are accepted: they go behind everything. -/
private theorem Ordered.accept (h : s.Ordered) (hCons : s.Conserved) (p : Producer n)
    (vs : List τ) : (s.enqueue p vs).Ordered := by
  have hNew : ∀ e ∈ number s.accepted.length p vs, s.accepted.length ≤ e.id :=
    fun e he => (number_get he).1
  refine ⟨?_, fun t ht e he hSame => ?_, ?_⟩
  · refine List.pairwise_append.mpr ⟨h.queue, pairwise_number _ _ _, fun e he e' he' => ?_⟩
    exact lt_of_lt_of_le (hCons.lt_of_queued he) (hNew e' he')
  · have hLt := hCons.lt_of_taken ht
    rw [producerOf_enqueue hLt] at hSame
    rcases he with hTasks | hDropped
    · rcases List.mem_append.mp hTasks with hOld | hAdded
      · exact h.ahead t ht e (.inl hOld) hSame
      · exact lt_of_lt_of_le hLt (hNew e hAdded)
    · exact h.ahead t ht e (.inr hDropped) hSame
  · refine List.Pairwise.imp_of_mem ?_ h.taken
    intro t t' ht ht' hLt hSame
    rw [producerOf_enqueue (hCons.lt_of_taken ht), producerOf_enqueue (hCons.lt_of_taken ht')]
      at hSame
    exact hLt hSame

/-- The first queued element of its producer is taken. -/
private theorem Ordered.take (h : s.Ordered) {w : Fin n} {i : Nat} {e : Elem n τ}
    (hElem : s.tasks[i]? = some e) (hFirst : ∀ e' ∈ s.tasks.take i, e'.producer ≠ e.producer)
    (hAccepted : s.accepted[e.id]? = some e) (hDropped : s.dropped = [])
    (hTasks' : s'.tasks = s.tasks.eraseIdx i) (hAccepted' : s'.accepted = s.accepted)
    (hDropped' : s'.dropped = s.dropped) (hHist' : s'.hist = s.hist ++ [.worker w (.take e.id)]) :
    s'.Ordered := by
  obtain ⟨hLen, hGet⟩ := List.getElem?_eq_some_iff.mp hElem
  have hOf : ∀ t, s'.producerOf t = s.producerOf t := fun t => by
    rw [producerOf, producerOf, hAccepted']
  have hMine : s.producerOf e.id = some e.producer := by
    rw [producerOf, hAccepted]
    rfl
  have hTaken : Model.taken s'.hist = Model.taken s.hist ++ [e.id] := by
    rw [hHist', taken_append]
    rfl
  -- the queue around the element
  have hSplit : s.tasks = s.tasks.take i ++ e :: s.tasks.drop (i + 1) := by
    rw [← hGet, ← List.drop_eq_getElem_cons hLen, List.take_append_drop]
  have hRest : ∀ e' ∈ s'.tasks, e' ∈ s.tasks.take i ∨ e' ∈ s.tasks.drop (i + 1) := by
    intro e' he'
    rw [hTasks', List.eraseIdx_eq_take_drop_succ] at he'
    exact List.mem_append.mp he'
  have hBehind : ∀ e' ∈ s.tasks.drop (i + 1), e.id < e'.id := by
    have hQueue := h.queue
    rw [hSplit] at hQueue
    exact (List.pairwise_cons.mp (List.pairwise_append.mp hQueue).2.1).1
  refine ⟨?_, fun t ht e' he' hSame => ?_, ?_⟩
  · rw [hTasks']
    exact h.queue.sublist (List.eraseIdx_sublist ..)
  · rw [hOf] at hSame
    rw [hDropped', hDropped] at he'
    have hQueued : e' ∈ s'.tasks := he'.resolve_right List.not_mem_nil
    rw [hTaken] at ht
    rcases List.mem_append.mp ht with hOld | hNow
    · rw [hTasks'] at hQueued
      exact h.ahead t hOld e' (.inl (List.mem_of_mem_eraseIdx hQueued)) hSame
    · rw [List.mem_singleton] at hNow
      subst hNow
      rw [hMine, Option.some.injEq] at hSame
      rcases hRest e' hQueued with hFront | hBack
      · exact absurd hSame.symm (hFirst e' hFront)
      · exact hBehind e' hBack
  · rw [hTaken]
    simp only [hOf]
    refine List.pairwise_append.mpr ⟨h.taken, List.pairwise_singleton _ _, ?_⟩
    intro t ht t' ht' hSame
    rw [List.mem_singleton] at ht'
    subst ht'
    exact h.ahead t ht e (.inl (List.mem_of_getElem? hElem)) (hSame.trans hMine)

theorem Flow.ordered {a : Action n τ} (hFlow : Flow s a s') (hGuard : guard fifo s a = true)
    (hReach : (system n B τ).Reachable s) (h : s.Ordered) : s'.Ordered := by
  cases hFlow with
  | still hTasks hAccepted hDropped hTaken =>
    refine ⟨hTasks ▸ h.queue, ?_, ?_⟩
    · rw [hTaken, hTasks, hDropped]
      simpa only [producerOf, hAccepted] using h.ahead
    · rw [hTaken]
      simpa only [producerOf, hAccepted] using h.taken
  | accept p vs hEq =>
    subst hEq
    exact h.accept (ParameterizedPool.conserved hReach) p vs
  | take w i e hElem hTasks hAccepted hDropped hHist hLife hAct =>
    subst hAct
    -- the guard: nothing of this producer is queued before it
    have hFirst : ∀ e' ∈ s.tasks.take i, e'.producer ≠ e.producer := by
      simpa [guard, fifo, hElem] using hGuard
    exact h.take hElem hFirst
      (held_accepted hReach (.inl (List.mem_of_getElem? hElem))) (dropped_eq_nil hReach hLife)
      hTasks hAccepted hDropped hHist
  | destroy hTasks hAccepted hDropped hHist =>
    -- what was queued is dropped now
    refine ⟨hTasks ▸ List.Pairwise.nil, fun t ht e he hSame => ?_, ?_⟩
    · rw [hTasks, hDropped] at he
      rw [hHist] at ht
      rw [producerOf, hAccepted] at hSame
      refine h.ahead t ht e ?_ hSame
      rcases he with hNone | hMem
      · exact absurd hNone List.not_mem_nil
      · exact (List.mem_append.mp hMem).symm
    · rw [hHist]
      simpa only [producerOf, hAccepted] using h.taken

theorem ordered (h : ((system n B τ).restrict (guard fifo)).Reachable s) : s.Ordered := by
  refine System.Reachable.induction (P := Ordered) ?_ ?_ h
  · exact ⟨List.Pairwise.nil, fun t ht => absurd ht List.not_mem_nil, List.Pairwise.nil⟩
  · intro s a s' hReach hOld hStep
    obtain ⟨hGuard, hPlain⟩ := System.restrict_step.mp hStep
    exact (step_cases hPlain).2.flow.ordered hGuard (.of_restrict hReach) hOld

-- ---------------------------------------------------------------------------
-- One call at a time
-- ---------------------------------------------------------------------------

/-- A step records at most one event, and a call begins at the test of the
loop. -/
theorem Step.record {a : Action n τ} (hStep : Step B s a s') :
    s'.hist = s.hist ∨ ∃ ev, s'.hist = s.hist ++ [ev] ∧
      ∀ w t, ev = .worker w (.start t) → ∃ i k, (s.workers w).pc = .looping i k := by
  cases hStep with
  | exit | again => exact .inl (List.append_nil _)
  | enter | dequeueElem | dequeueReturn | taskReturn =>
    exact .inr ⟨_, rfl, fun _ _ hEq => by simp at hEq⟩
  | invoke w i k e hPc =>
    refine .inr ⟨_, rfl, fun v t hEq => ?_⟩
    cases hEq
    exact ⟨i, k, hPc⟩
  | await | joinThrows | awaited | destroy => exact .inr ⟨_, rfl, fun _ _ hEq => by simp at hEq⟩
  | _ => exact .inl rfl

/-- **One call at a time.** When a worker begins a call it has finished all
it began before. -/
theorem calls_sequential (h : (system n B τ).Reachable s) :
    Always (fun past ev => ∀ w t, ev = .worker w (.start t) →
      starts (own w past) = finishes (own w past)) s.hist := by
  refine System.Reachable.induction (P := fun s : ParameterizedPool n τ =>
    Always (fun past ev => ∀ w t, ev = .worker w (.start t) →
      starts (own w past) = finishes (own w past)) s.hist) .nil ?_ h
  intro s a s' hReach hOld hStep
  rcases (step_cases hStep).2.record with hSame | ⟨ev, hHist, hStart⟩
  · rw [hSame]
    exact hOld
  · rw [hHist]
    refine hOld.snoc fun w t hEq => ?_
    obtain ⟨i, k, hPc⟩ := hStart w t hEq
    have hIdle : (s.workers w).running = [] := by simp [Worker.running, hPc]
    rw [(worker_ok hReach w).traced.starts_eq, hIdle, List.map_nil, List.append_nil]

/-- Of two tasks of a producer taken by the same worker, the one accepted
first is finished when the other begins. -/
theorem finished_before (h : ((system n B τ).restrict (guard fifo)).Reachable s) {w : Fin n}
    {a b : Nat} (hSame : s.producerOf a = s.producerOf b) (hLt : a < b)
    (hTaken : a ∈ takes (own w s.hist)) {past future : List (Event n)}
    (hHist : s.hist = past ++ .worker w (.start b) :: future) :
    .worker w (.finish a) ∈ past := by
  have hReach : (system n B τ).Reachable s := .of_restrict h
  -- what `w` took, with the call of `b` in the middle
  have hTakes : takes (own w s.hist) = starts (own w past) ++ b ::
      (starts (own w future) ++ (s.workers w).pending.map Elem.id) := by
    rw [(worker_ok hReach w).traced.takes_eq]
    have hOwn : own w s.hist = own w past ++ (.start b :: own w future) := by
      rw [hHist, own_append]
      simp [own, Event.of]
    rw [hOwn, starts_append]
    simp [starts, WorkerEvent.started]
  have hOrder := (ordered h).taken.sublist (takes_sublist w s.hist)
  rw [hTakes] at hTaken hOrder
  have hAfter := (List.pairwise_cons.mp (List.pairwise_append.mp hOrder).2.1).1
  rcases List.mem_append.mp hTaken with hBefore | hLater
  · -- begun before, and finished as `b` begins
    rw [calls_sequential hReach hHist w b rfl] at hBefore
    exact mem_own.mp (mem_finishes.mp hBefore)
  · -- not behind `b`, where the names of the producer are larger
    rcases List.mem_cons.mp hLater with rfl | hBehind
    · exact absurd hLt (Nat.lt_irrefl a)
    · exact absurd (hAfter a hBehind hSame.symm) (Nat.lt_asymm hLt)

/-- When a task has left the queue, so have all earlier ones of its
producer. -/
theorem taken_before (h : ((system n B τ).restrict (guard fifo)).Reachable s) {a b : Elem n τ}
    (ha : a ∈ s.accepted) (hSame : s.producerOf b.id = some a.producer) (hLt : a.id < b.id)
    (hTaken : b.id ∈ Model.taken s.hist) : a.id ∈ Model.taken s.hist := by
  have hReach : (system n B τ).Reachable s := .of_restrict h
  have hCons := conserved hReach
  have hMem : a.id ∈ s.accepted.map Elem.id := List.mem_map_of_mem ha
  rw [hCons.ids, ← hCons.perm.mem_iff] at hMem
  -- the other places hold only larger names of the producer
  have hNot : ∀ e, e ∈ s.tasks ∨ e ∈ s.dropped → e.id ≠ a.id := by
    intro e he hId
    have hValue : s.accepted[e.id]? = some e := held_accepted hReach (he.imp_right .inr)
    rw [hId, hCons.accepted_get ha, Option.some.injEq] at hValue
    subst hValue
    exact absurd ((ordered h).ahead _ hTaken a he hSame) (Nat.lt_asymm hLt)
  rcases List.mem_append.mp hMem with hMem | hDropped
  · rcases List.mem_append.mp hMem with hQueued | hTaken'
    · obtain ⟨e, he, hId⟩ := List.mem_map.mp hQueued
      exact absurd hId (hNot e (.inl he))
    · exact hTaken'
  · obtain ⟨e, he, hId⟩ := List.mem_map.mp hDropped
    exact absurd hId (hNot e (.inr he))

end ParameterizedPool

/-- **Per-producer order.** Let `a` and `b` be accepted from the same
producer, `a` first, and let worker `w` begin `b`. If `w` runs `a` too, it
has finished `a` by then; and if the pool has one thread, it has run and
finished `a` by then. -/
theorem producer_order {B : Nat} {L : Types} {s : Process n L}
    (h : ((Process.system n B L).restrict (Process.guard fifo)).Reachable s)
    {a b : Elem n (Consumer L)} (ha : a ∈ s.pool.accepted) (hb : b ∈ s.pool.accepted)
    (hSame : a.producer = b.producer) (hLt : a.id < b.id) {w : Fin n}
    {past future : List (Event n)}
    (hHist : s.pool.hist = past ++ .worker w (.start b.id) :: future) :
    (.worker w (.start a.id) ∈ s.pool.hist → .worker w (.finish a.id) ∈ past) ∧
      (n = 1 → .worker w (.finish a.id) ∈ past) := by
  have hPool := (Process.guardedSimulation n B L fifo).reachable h
  have hReach : (ParameterizedPool.system n B (Consumer L)).Reachable s.pool :=
    .of_restrict hPool
  have hCons := ParameterizedPool.conserved hReach
  have hOf : ∀ {e}, e ∈ s.pool.accepted → s.pool.producerOf e.id = some e.producer := by
    intro e he
    rw [ParameterizedPool.producerOf, hCons.accepted_get he]
    rfl
  have hProducer : s.pool.producerOf a.id = s.pool.producerOf b.id := by
    rw [hOf ha, hOf hb, hSame]
  have hBefore : a.id ∈ takes (own w s.pool.hist) → .worker w (.finish a.id) ∈ past :=
    fun hTaken => ParameterizedPool.finished_before hPool hProducer hLt hTaken hHist
  refine ⟨fun hStart => hBefore ?_, fun hOne => hBefore ?_⟩
  · exact ParameterizedPool.starts_subset_takes hReach (mem_starts.mpr (mem_own.mpr hStart))
  · -- the only worker took `b`, so it took everything of the producer before it
    have hBegun : .worker w (.start b.id) ∈ s.pool.hist := by simp [hHist]
    have hTakenB : b.id ∈ taken s.pool.hist := mem_taken.mpr
      ⟨w, ParameterizedPool.starts_subset_takes hReach (mem_starts.mpr (mem_own.mpr hBegun))⟩
    have hTakenA := ParameterizedPool.taken_before hPool ha
      ((hOf hb).trans (congrArg some hSame.symm)) hLt hTakenB
    obtain ⟨v, hv⟩ := mem_taken.mp hTakenA
    subst hOne
    rwa [Subsingleton.elim w v]

/-- Two producers schedule a task each. -/
def scheduleTwo : List (Process.Op 1 Process.natTypes) :=
  Process.construct 1 ++
    [.scheduleAndForget (.client 0) none (Process.adder 0) [] faultless,
      .schedule (.client 0) (some 0) (Process.adder 0) [] faultless]

def twoScheduled : Process 1 Process.natTypes :=
  ((Process.system 1 3 Process.natTypes).run (Process.system 1 3 Process.natTypes).init
    scheduleTwo).get rfl

/-- The second producer adds an array of two. -/
def arrayBehind : Process 1 Process.natTypes :=
  (Process.scheduleBulk faultless (.client 1) (some 0)
    [some (Process.adder 1), some (Process.adder 2)] twoScheduled).2

/-- The worker takes the tasks of the second producer in one batch, leaves the
other one for the next, and begins the last. -/
def twoProducers : List (Process.Op 1 Process.natTypes) :=
  .control (.check only) :: List.replicate 3 (.control (.dequeueElem only 1)) ++
    [.control (.dequeueReturn only), .control (.loop only), .invoke only, .control (.loop only),
      .invoke only, .control (.loop only)]

/-- The first element of the array is finished as the second begins. -/
theorem producer_order_twoProducers :
    .worker 0 (.finish 2) ∈ [Event.worker (0 : Fin 1) .enter, .worker 0 (.take 1),
      .worker 0 (.take 2), .worker 0 (.take 3), .worker 0 (.dequeued 3), .worker 0 (.start 1),
      .worker 0 (.finish 1), .worker 0 (.start 2), .worker 0 (.finish 2)] := by
  let M := (Process.system 1 3 Process.natTypes).restrict (Process.guard fifo)
  have hReach : M.Reachable twoScheduled := System.Reachable.get scheduleTwo rfl
  have hStep : M.step twoScheduled (.scheduleBulk (.client 1) (some 0)
      [some (Process.adder 1), some (Process.adder 2)] faultless) = some arrayBehind := rfl
  have hLeads := System.Leads.get (M := M) arrayBehind twoProducers rfl
  -- the elements of the array are accepted in index order
  have hBulk : Process.scheduleBulk faultless (.client 1) (some 0)
      [some (Process.adder 1), some (Process.adder 2)] twoScheduled =
        (.returned true, arrayBehind) := rfl
  have hCall := Process.Succeeds.scheduleBulk hBulk
  exact (producer_order (w := 0) ((hReach.step hStep).leads hLeads)
    (List.mem_of_getElem? (hCall.accepted_get hLeads.of_restrict (k := 0) rfl))
    (List.mem_of_getElem? (hCall.accepted_get hLeads.of_restrict (k := 1) rfl)) rfl (by decide)
    rfl).2 rfl

end ThreadPool.Model
