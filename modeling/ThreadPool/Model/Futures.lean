import ThreadPool.Model.Joining
import ThreadPool.Model.Shutdown

/-!
# ThreadPool — futures

What the future of a `schedule` call holds is a function of where its task
is: nothing while the task is queued, in a batch or being called; the
outcome of the callable of that call once a worker has finished it; and
`broken_promise` once the queue was destroyed around it (`Entry`).

* `futures_ok` — this, for every packaged task of every reachable state;
* `future_outcome` — a future is resolved by a worker exactly when its task
  is finished, with its own outcome, and no future is left pending by the
  destructor;
* `awaited_futures` — after `stop().await()` a future is resolved, or its
  task is still in the queue and nobody will ever call it.
-/

namespace ThreadPool.Model

open ThreadPool.Lib
open Process (first second)

variable {n : Nat} {L : Types}

-- ---------------------------------------------------------------------------
-- Destroying consumers
-- ---------------------------------------------------------------------------

/-- A resolved shared state stays as it is. -/
theorem PackagedTask.release_resolved {t : PackagedTask L} (h : t.shared ≠ .pending) :
    t.release.shared = t.shared := by
  cases hShared : t.shared with
  | pending => exact absurd hShared h
  | _ => simp [PackagedTask.release, hShared, Promise.isPending]

/-- The last owner breaks a promise that is pending. -/
theorem PackagedTask.release_last {t : PackagedTask L} (hRefs : t.refs = 1)
    (hShared : t.shared = .pending) : t.release.shared = .broken := by
  simp [PackagedTask.release, hRefs, hShared, Promise.isPending]

/-- What destroying consumers does to one packaged task: some owners go. -/
inductive Released : PackagedTask L → PackagedTask L → Prop
  | refl (t : PackagedTask L) : Released t t
  | step {t u : PackagedTask L} (h : Released t.release u) : Released t u

theorem Released.names {t u : PackagedTask L} (h : Released t u) :
    u.task = t.task ∧ u.call = t.call := by
  induction h with
  | refl => exact ⟨rfl, rfl⟩
  | step _ ih => exact ih

theorem Released.resolved {t u : PackagedTask L} (h : Released t u)
    (hShared : t.shared ≠ .pending) : u.shared = t.shared := by
  induction h with
  | refl => rfl
  | step _ ih =>
    have hSame := PackagedTask.release_resolved hShared
    rw [ih (hSame ▸ hShared), hSame]

theorem getElem?_destroy_self (heap : Heap L) (j : Nat) :
    (Consumer.destroy heap (.packaged j))[j]? = heap[j]?.map PackagedTask.release := by
  simp [Consumer.destroy]

theorem getElem?_destroy_ne (heap : Heap L) {c : Consumer L} {j : Nat} (hNe : c ≠ .packaged j) :
    (Consumer.destroy heap c)[j]? = heap[j]? := by
  cases c with
  | packaged i =>
    have hIdx : i ≠ j := fun hEq => hNe (congrArg _ hEq)
    simp [Consumer.destroy, hIdx]
  | _ => rfl

/-- Destroying consumers releases the packaged tasks among them, and leaves
every other one alone. -/
theorem getElem?_destroyAll {heap : Heap L} {j : Nat} {t : PackagedTask L}
    (hj : heap[j]? = some t) (cs : List (Consumer L)) :
    ∃ u, (cs.foldl Consumer.destroy heap)[j]? = some u ∧ Released t u ∧
      (.packaged j ∉ cs → u = t) ∧ (.packaged j ∈ cs → Released t.release u) := by
  induction cs generalizing heap t with
  | nil => exact ⟨t, hj, .refl t, fun _ => rfl, fun hMem => absurd hMem List.not_mem_nil⟩
  | cons c cs ih =>
    rw [List.foldl_cons]
    by_cases hEq : c = .packaged j
    · subst hEq
      have hRelease := getElem?_destroy_self heap j
      rw [hj, Option.map_some] at hRelease
      obtain ⟨u, hu, hRel, -, -⟩ := ih hRelease
      exact ⟨u, hu, .step hRel, fun hNot => absurd List.mem_cons_self hNot, fun _ => hRel⟩
    · obtain ⟨u, hu, hRel, hOut, hIn⟩ := ih ((getElem?_destroy_ne heap hEq).trans hj)
      refine ⟨u, hu, hRel, fun hNot => hOut fun hMem => hNot (List.mem_cons_of_mem _ hMem),
        fun hMem => hIn ?_⟩
      exact (List.mem_cons.mp hMem).resolve_left fun hHead => hEq hHead.symm

theorem length_destroyAll (heap : Heap L) (cs : List (Consumer L)) :
    (cs.foldl Consumer.destroy heap).length = heap.length := by
  induction cs generalizing heap with
  | nil => rfl
  | cons c cs ih =>
    rw [List.foldl_cons, ih]
    cases c <;> simp [Consumer.destroy]

-- ---------------------------------------------------------------------------
-- The state of a future
-- ---------------------------------------------------------------------------

namespace Process

variable {B : Nat} {s s' : Process n L}

/-- The packaged task at index `j` is the one its queue element calls. -/
def Linked (s : Process n L) (j : Nat) (t : PackagedTask L) : Prop :=
  ∃ e, s.pool.accepted[t.task]? = some e ∧ e.val = .packaged j

/-- What the packaged task at index `j` is for, and what its future holds. -/
structure Entry (s : Process n L) (j : Nat) (t : PackagedTask L) : Prop where
  linked : Linked s j t
  finished : Finished s.pool.hist t.task →
    t.shared = .ready (t.call.callable.outcome t.call.args)
  dropped : t.task ∈ s.pool.dropped.map Elem.id → t.shared = .broken
  waiting : ¬ Finished s.pool.hist t.task → t.task ∉ s.pool.dropped.map Elem.id →
    t.shared = .pending ∧ t.bound = t.call ∧ t.refs = 1

/-- Every packaged task is in order, and each packaged element has one. -/
structure FuturesOk (s : Process n L) : Prop where
  entry : ∀ j t, s.heap[j]? = some t → Entry s j t
  listed : ∀ e ∈ s.pool.accepted, ∀ j, e.val = .packaged j →
    ∃ t, s.heap[j]? = some t ∧ t.task = e.id

theorem Linked.mono {j : Nat} {t u : PackagedTask L} (h : Linked s j t)
    (hAccepted : s.pool.accepted <+: s'.pool.accepted) (hTask : u.task = t.task) :
    Linked s' j u := by
  obtain ⟨e, hAt, hVal⟩ := h
  obtain ⟨more, hMore⟩ := hAccepted
  refine ⟨e, ?_, hVal⟩
  rw [hTask, ← hMore, List.getElem?_append_left (List.getElem?_eq_some_iff.mp hAt).1]
  exact hAt

/-- An entry does not depend on what else happens. -/
theorem Entry.congr {j : Nat} {t : PackagedTask L} (h : Entry s j t)
    (hAccepted : s.pool.accepted <+: s'.pool.accepted)
    (hFinished : Finished s'.pool.hist t.task ↔ Finished s.pool.hist t.task)
    (hDropped : t.task ∈ s'.pool.dropped.map Elem.id ↔ t.task ∈ s.pool.dropped.map Elem.id) :
    Entry s' j t where
  linked := h.linked.mono hAccepted rfl
  finished hFin := h.finished (hFinished.mp hFin)
  dropped hDrop := h.dropped (hDropped.mp hDrop)
  waiting hNot hHeld := h.waiting (fun hFin => hNot (hFinished.mpr hFin))
    fun hDrop => hHeld (hDropped.mpr hDrop)

/-- The array with the task in it is destroyed, after the call: the future
keeps what it holds. -/
theorem Entry.release {j : Nat} {t u : PackagedTask L} (h : Entry s j t) (hRel : Released t u)
    (hDone : Finished s.pool.hist t.task) (hAccepted : s.pool.accepted <+: s'.pool.accepted)
    (hFinished : Finished s'.pool.hist t.task ↔ Finished s.pool.hist t.task)
    (hDropped : t.task ∈ s'.pool.dropped.map Elem.id ↔ t.task ∈ s.pool.dropped.map Elem.id) :
    Entry s' j u := by
  obtain ⟨hTask, hCall⟩ := hRel.names
  have hReady := h.finished hDone
  have hKeep := hRel.resolved (by simp [hReady])
  refine ⟨h.linked.mono hAccepted hTask, fun _ => ?_, fun hDrop => ?_, fun hNot => ?_⟩
  · rw [hKeep, hCall, hReady]
  · rw [hTask, hDropped] at hDrop
    rw [hKeep]
    exact h.dropped hDrop
  · rw [hTask, hFinished] at hNot
    exact absurd hDone hNot

/-- The queue is destroyed with the task in it: the promise is pending and
loses its only owner. -/
theorem Entry.destroy {j : Nat} {t u : PackagedTask L} (h : Entry s j t)
    (hRel : Released t.release u) (hNot : ¬ Finished s.pool.hist t.task)
    (hHeld : t.task ∉ s.pool.dropped.map Elem.id)
    (hAccepted : s.pool.accepted <+: s'.pool.accepted)
    (hFinished : Finished s'.pool.hist t.task ↔ Finished s.pool.hist t.task)
    (hDropped : t.task ∈ s'.pool.dropped.map Elem.id) : Entry s' j u := by
  obtain ⟨hTask, -⟩ := hRel.names
  obtain ⟨hPending, -, hRefs⟩ := h.waiting hNot hHeld
  have hBroken := PackagedTask.release_last hRefs hPending
  have hKeep := hRel.resolved (by simp [hBroken])
  refine ⟨h.linked.mono hAccepted hTask, fun hDone => ?_, fun _ => hKeep.trans hBroken,
    fun _ hNotDrop => ?_⟩
  · rw [hTask] at hDone
    exact absurd (hFinished.mp hDone) hNot
  · rw [hTask] at hNotDrop
    exact absurd hDropped hNotDrop

/-- Two packaged tasks are for different elements. -/
theorem Entry.index_eq {i j : Nat} {t u : PackagedTask L} (h : Entry s i t) (h' : Entry s j u)
    (hTask : t.task = u.task) : i = j := by
  obtain ⟨e, hAt, hVal⟩ := h.linked
  obtain ⟨e', hAt', hVal'⟩ := h'.linked
  rw [hTask, hAt', Option.some.injEq] at hAt
  rw [hAt, hVal] at hVal'
  exact Consumer.packaged.inj hVal'

/-- A call that accepts functions only. -/
private theorem FuturesOk.accept (h : FuturesOk s) (p : Producer n) (cs : List (Consumer L))
    (hPlain : ∀ c ∈ cs, ∀ j, c ≠ .packaged j) : FuturesOk (s.accepted p cs) where
  entry j t hj := (h.entry j t hj).congr (List.prefix_append _ _) Iff.rfl Iff.rfl
  listed e he j hVal := by
    rcases List.mem_append.mp he with hOld | hNew
    · exact h.listed e hOld j hVal
    · obtain ⟨v, hv, rfl⟩ := List.mem_map.mp hNew
      have hMem : v.1 ∈ cs := List.fst_mem_of_mem_zipIdx hv
      exact absurd hVal (hPlain _ hMem j)

/-- A successful `schedule`. -/
private theorem FuturesOk.scheduled (h : FuturesOk s)
    (hReach : (ParameterizedPool.system n B (Consumer L)).Reachable s.pool) (p : Producer n)
    (b : Bound L) : FuturesOk (s.scheduled p b) := by
  have hCons := ParameterizedPool.conserved hReach
  have hNewElem : (s.scheduled p b).pool.accepted =
      s.pool.accepted ++ [⟨s.pool.accepted.length, p, .packaged s.heap.length⟩] := rfl
  constructor
  · intro j t hj
    by_cases hLt : j < s.heap.length
    · have hOld : s.heap[j]? = some t := by
        rwa [Process.scheduled, List.getElem?_append_left hLt] at hj
      exact (h.entry j t hOld).congr (List.prefix_append _ _) Iff.rfl Iff.rfl
    · -- the packaged task of this call
      rw [Process.scheduled, List.getElem?_append_right (by omega), List.getElem?_singleton] at hj
      simp only [Option.ite_none_right_eq_some, Option.some.injEq] at hj
      obtain ⟨hZero, rfl⟩ := hj
      have hIdx : j = s.heap.length := by omega
      -- its name is new: nothing is finished or dropped under it
      have hFresh : ¬ Finished s.pool.hist s.pool.accepted.length := fun hFin =>
        absurd (ParameterizedPool.located_lt hReach (p := .finished) hFin) (Nat.lt_irrefl _)
      have hHeld : s.pool.accepted.length ∉ s.pool.dropped.map Elem.id := fun hMem =>
        absurd (List.mem_range.mp (hCons.perm.mem_iff.mp (List.mem_append_right _ hMem)))
          (Nat.lt_irrefl _)
      refine ⟨⟨⟨s.pool.accepted.length, p, .packaged s.heap.length⟩, ?_, ?_⟩,
        fun hFin => absurd hFin hFresh, fun hMem => absurd hMem hHeld, fun _ _ => ⟨rfl, rfl, rfl⟩⟩
      · rw [hNewElem]
        exact List.getElem?_concat_length
      · rw [hIdx]
  · intro e he j hVal
    rw [hNewElem] at he
    rcases List.mem_append.mp he with hOld | hNew
    · obtain ⟨t, hj, hTask⟩ := h.listed e hOld j hVal
      refine ⟨t, ?_, hTask⟩
      rw [Process.scheduled, List.getElem?_append_left (List.getElem?_eq_some_iff.mp hj).1]
      exact hj
    · rw [List.mem_singleton] at hNew
      subst hNew
      cases hVal
      exact ⟨_, List.getElem?_concat_length, rfl⟩

-- ---------------------------------------------------------------------------
-- What a control step destroys
-- ---------------------------------------------------------------------------

/-- A control step destroys nothing, or an array all of whose elements are
finished, or the queue. -/
theorem destroyed_cases {c : Control n} {pool : ParameterizedPool n (Consumer L)}
    (hReach : (ParameterizedPool.system n B (Consumer L)).Reachable s.pool)
    (hStep : ParameterizedPool.Step B s.pool (.control c) pool) :
    (destroyed s.pool c = [] ∧ pool.dropped = s.pool.dropped) ∨
      (∃ w, destroyed s.pool c = (s.pool.workers w).batch.map Elem.val ∧
        (∀ e ∈ (s.pool.workers w).batch, Finished s.pool.hist e.id) ∧
        pool.dropped = s.pool.dropped) ∨
      (destroyed s.pool c = s.pool.tasks.map Elem.val ∧
        pool.dropped = s.pool.dropped ++ s.pool.tasks) := by
  cases hStep with
  | again w i k hPc hGe =>
    refine .inr (.inl ⟨w, ?_, fun e he => ?_, rfl⟩)
    · simp only [destroyed, hPc, Nat.not_lt.mpr hGe, if_false, consumers, Worker.batch,
        List.map_filterMap, id_eq]
    · -- the loop is over: nothing is pending or being called
      have hPending := (ParameterizedPool.worker_ok hReach w).shape.pending_nil hPc hGe
      have hRunning : (s.pool.workers w).running = [] := by simp [Worker.running, hPc]
      have hTaken := ParameterizedPool.batch_taken hReach he
      rw [ParameterizedPool.takes_split hReach, hPending, hRunning] at hTaken
      exact finished_iff.mpr ⟨w, by simpa using hTaken⟩
  | invoke w i k e hPc hLt => exact .inl ⟨by simp [destroyed, hPc, hLt], rfl⟩
  | teardownTasks c hLife => exact .inr (.inr ⟨by simp [destroyed, hLife], rfl⟩)
  | teardownDone c hLife | teardownThreads c hLife =>
    exact .inl ⟨by simp [destroyed, hLife], rfl⟩
  | abort _ r hCause =>
    refine .inl ⟨?_, rfl⟩
    cases hCause with
    | unfilledSlot w i k hPc hLt | outOfBounds w i k hPc hLt => simp [destroyed, hPc, hLt]
    | joinable c w hLife => simp [destroyed, hLife]
    | _ => rfl
  | _ => exact .inl ⟨rfl, rfl⟩

/-- A packaged element names the entry of its task. -/
theorem FuturesOk.entry_of (h : FuturesOk s) {e : Elem n (Consumer L)} {j : Nat}
    {t : PackagedTask L} (hAt : s.pool.accepted[e.id]? = some e) (hVal : e.val = .packaged j)
    (hj : s.heap[j]? = some t) : t.task = e.id := by
  obtain ⟨u, hu, hTask⟩ := h.listed e (List.mem_of_getElem? hAt) j hVal
  rw [hj, Option.some.injEq] at hu
  rw [hu, hTask]

/-- What a control step does to an entry. -/
private theorem Entry.control (h : FuturesOk s)
    (hReach : (ParameterizedPool.system n B (Consumer L)).Reachable s.pool) {c : Control n}
    {pool : ParameterizedPool n (Consumer L)}
    (hStep : ParameterizedPool.Step B s.pool (.control c) pool) {j : Nat} {t u : PackagedTask L}
    (hj : s.heap[j]? = some t) (hRel : Released t u)
    (hOut : .packaged j ∉ destroyed s.pool c → u = t)
    (hIn : .packaged j ∈ destroyed s.pool c → Released t.release u) :
    Entry ⟨pool, (destroyed s.pool c).foldl Consumer.destroy s.heap⟩ j u := by
  have hEntry := h.entry j t hj
  have hFin := hStep.control_finished t.task
  have hAccepted := hStep.accepted_grows
  rcases destroyed_cases hReach hStep with ⟨hNil, hDropped⟩ | ⟨w, hList, hAll, hDropped⟩ |
    ⟨hList, hDropped⟩
  · obtain rfl := hOut (by simp [hNil])
    exact hEntry.congr hAccepted hFin (by rw [hDropped])
  · -- an array: the tasks in it are finished
    by_cases hMem : .packaged j ∈ destroyed s.pool c
    · rw [hList] at hMem
      obtain ⟨e, he, hVal⟩ := List.mem_map.mp hMem
      have hTask := h.entry_of
        (ParameterizedPool.held_accepted hReach (.inr (.inl ⟨w, he⟩))) hVal hj
      exact hEntry.release hRel (hTask ▸ hAll e he) hAccepted hFin (by rw [hDropped])
    · obtain rfl := hOut hMem
      exact hEntry.congr hAccepted hFin (by rw [hDropped])
  · -- the queue: the tasks in it are dropped, and no other
    have hDroppedIff : t.task ∈ pool.dropped.map Elem.id ↔
        t.task ∈ s.pool.dropped.map Elem.id ∨ t.task ∈ s.pool.tasks.map Elem.id := by
      rw [hDropped, List.map_append, List.mem_append]
    by_cases hMem : .packaged j ∈ destroyed s.pool c
    · obtain ⟨e, he, hVal⟩ := List.mem_map.mp (hList ▸ hMem)
      have hTask := h.entry_of (ParameterizedPool.held_accepted hReach (.inl he)) hVal hj
      have hQueued : t.task ∈ s.pool.tasks.map Elem.id := hTask ▸ List.mem_map_of_mem he
      have hCons := ParameterizedPool.conserved hReach
      exact hEntry.destroy (hIn hMem) (hTask ▸ hCons.not_finished hReach (.inl he))
        (hCons.not_dropped hQueued) hAccepted hFin (hDroppedIff.mpr (.inr hQueued))
    · obtain rfl := hOut hMem
      refine hEntry.congr hAccepted hFin (hDroppedIff.trans (or_iff_left fun hQueued => hMem ?_))
      obtain ⟨e, he, hId⟩ := List.mem_map.mp hQueued
      obtain ⟨e', hAt, hVal⟩ := hEntry.linked
      rw [← hId, ParameterizedPool.held_accepted hReach (.inl he), Option.some.injEq] at hAt
      subst hAt
      exact hList ▸ hVal ▸ List.mem_map_of_mem he

private theorem FuturesOk.control (h : FuturesOk s)
    (hReach : (ParameterizedPool.system n B (Consumer L)).Reachable s.pool) {c : Control n}
    {pool : ParameterizedPool n (Consumer L)}
    (hStep : ParameterizedPool.Step B s.pool (.control c) pool) :
    FuturesOk ⟨pool, (destroyed s.pool c).foldl Consumer.destroy s.heap⟩ := by
  constructor
  · intro j u hu
    obtain ⟨hLen, -⟩ := List.getElem?_eq_some_iff.mp hu
    rw [length_destroyAll] at hLen
    have hj := List.getElem?_eq_getElem hLen
    obtain ⟨u', hu', hRel, hOut, hIn⟩ := getElem?_destroyAll hj (destroyed s.pool c)
    rw [hu', Option.some.injEq] at hu
    subst hu
    exact Entry.control h hReach hStep hj hRel hOut hIn
  · intro e he j hVal
    obtain ⟨t, hj, hTask⟩ := h.listed e (hStep.control_accepted ▸ he) j hVal
    obtain ⟨u, hu, hRel, -⟩ := getElem?_destroyAll hj (destroyed s.pool c)
    exact ⟨u, hu, hRel.names.1.trans hTask⟩

-- ---------------------------------------------------------------------------
-- What a call does
-- ---------------------------------------------------------------------------

/-- The packaged task of the element a worker is calling is pending. -/
theorem FuturesOk.current (h : FuturesOk s)
    (hReach : (ParameterizedPool.system n B (Consumer L)).Reachable s.pool) {w : Fin n}
    {e : Elem n (Consumer L)} (hCur : s.pool.current w = some e) :
    s.pool.accepted[e.id]? = some e ∧
      ∀ j, e.val = .packaged j → ∃ t, s.heap[j]? = some t ∧ t.task = e.id ∧
        t.shared = .pending ∧ t.bound = t.call := by
  have hBatch := ParameterizedPool.current_mem_batch hReach hCur
  have hAt := ParameterizedPool.held_accepted hReach (.inr (.inl ⟨w, hBatch⟩))
  refine ⟨hAt, fun j hVal => ?_⟩
  obtain ⟨t, hj, hTask⟩ := h.listed e (List.mem_of_getElem? hAt) j hVal
  have hNotFin := ParameterizedPool.current_not_finished hReach hCur
  have hNotDrop : e.id ∉ s.pool.dropped.map Elem.id := by
    intro hDrop
    have hTaken := mem_taken.mpr ⟨w, ParameterizedPool.batch_taken hReach hBatch⟩
    exact (List.nodup_append.mp (ParameterizedPool.conserved hReach).nodup).2.2 _
      (List.mem_append_right _ hTaken) _ hDrop rfl
  obtain ⟨hPending, hBound, -⟩ := (h.entry j t hj).waiting (hTask ▸ hNotFin) (hTask ▸ hNotDrop)
  exact ⟨t, hj, hTask, hPending, hBound⟩

/-- A call returns: the future of its task is resolved, and no other. -/
private theorem FuturesOk.returned (h : FuturesOk s)
    (hReach : (ParameterizedPool.system n B (Consumer L)).Reachable s.pool) {w : Fin n}
    {e : Elem n (Consumer L)} {heap : Heap L} {pool : ParameterizedPool n (Consumer L)}
    (hCur : s.pool.current w = some e) (hCall : e.val.call s.heap = (none, heap))
    (hAccepted : pool.accepted = s.pool.accepted) (hDropped : pool.dropped = s.pool.dropped)
    (hFin : ∀ t, Finished pool.hist t ↔ Finished s.pool.hist t ∨ t = e.id) :
    FuturesOk ⟨pool, heap⟩ := by
  obtain ⟨hAt, hPackaged⟩ := h.current hReach hCur
  have hOther : ∀ j t, s.heap[j]? = some t → t.task ≠ e.id → Entry ⟨pool, heap⟩ j t := by
    intro j t hj hNe
    exact (h.entry j t hj).congr (hAccepted ▸ List.prefix_rfl) ((hFin _).trans (or_iff_left hNe))
      (by rw [hDropped])
  by_cases hKind : ∃ j, e.val = .packaged j
  · -- the packaged task of this element, pending until now
    obtain ⟨j, hVal⟩ := hKind
    obtain ⟨t, hj, hTask, hPending, hBound⟩ := hPackaged j hVal
    rw [hVal, call_packaged hj hPending] at hCall
    obtain rfl := (Prod.mk.inj hCall).2
    have hLen := (List.getElem?_eq_some_iff.mp hj).1
    constructor
    · intro i u hu
      by_cases hIdx : i = j
      · subst hIdx
        rw [List.getElem?_set_self hLen, Option.some.injEq] at hu
        subst hu
        have hDone : Finished pool.hist t.task := (hFin _).mpr (.inr hTask)
        have hNotDrop : t.task ∉ s.pool.dropped.map Elem.id := fun hDrop => by
          have hBroken := (h.entry i t hj).dropped hDrop
          rw [hPending] at hBroken
          simp at hBroken
        refine ⟨(h.entry i t hj).linked.mono (hAccepted ▸ List.prefix_rfl) rfl, fun _ => ?_,
          fun hDrop => absurd (hDropped ▸ hDrop) hNotDrop, fun hNot => absurd hDone hNot⟩
        rw [← hBound]
        rfl
      · rw [List.getElem?_set_ne (Ne.symm hIdx)] at hu
        refine hOther i u hu fun hSame => hIdx ?_
        exact (h.entry i u hu).index_eq (h.entry j t hj) (hSame.trans hTask.symm)
    · intro e' he' i hVal'
      obtain ⟨u, hu, hName⟩ := h.listed e' (hAccepted ▸ he') i hVal'
      by_cases hIdx : i = j
      · subst hIdx
        rw [hj, Option.some.injEq] at hu
        subst hu
        exact ⟨_, List.getElem?_set_self hLen, hName⟩
      · exact ⟨u, by rw [List.getElem?_set_ne (Ne.symm hIdx)]; exact hu, hName⟩
  · -- a function: no packaged task is for this element
    have hSame : heap = s.heap := by
      rcases call_heap hCall with hEq | ⟨j, _, hVal, -⟩
      · exact hEq
      · exact absurd ⟨j, hVal⟩ hKind
    subst hSame
    refine ⟨fun j t hj => hOther j t hj fun hTask => hKind ?_, fun e' he' j hVal => ?_⟩
    · obtain ⟨e', hAt', hVal'⟩ := (h.entry j t hj).linked
      rw [hTask, hAt, Option.some.injEq] at hAt'
      exact ⟨j, hAt' ▸ hVal'⟩
    · exact h.listed e' (hAccepted ▸ he') j hVal

theorem Step.futuresOk {op : Op n L} (hStep : Step B s op s')
    (hReach : (ParameterizedPool.system n B (Consumer L)).Reachable s.pool) (h : FuturesOk s) :
    FuturesOk s' := by
  cases hStep with
  | control c pool hPool => exact h.control hReach (ParameterizedPool.step_cases hPool).2
  | call op th _ hReady hCalls =>
    cases hCalls.effect with
    | failed => exact h
    | stopped =>
      exact ⟨fun j t hj => (h.entry j t hj).congr List.prefix_rfl Iff.rfl Iff.rfl, h.listed⟩
    | scheduled token f args φ => exact h.scheduled hReach _ _
    | forgotten token f args φ => exact h.accept _ _ (by simp)
    | bulk token array φ =>
      refine h.accept _ _ fun c hc j => ?_
      obtain ⟨f, -, rfl⟩ := List.mem_map.mp hc
      cases f <;> simp [Consumer.ofFunction]
  | returned w e heap pool hCur hCall hPool =>
    obtain ⟨e', hCur', hAccepted, hDropped, hFin⟩ :=
      (ParameterizedPool.step_cases hPool).2.returns
    rw [hCur, Option.some.injEq] at hCur'
    subst hCur'
    exact h.returned hReach hCur hCall hAccepted hDropped hFin
  | threw w e x heap pool hCur hCall hPool =>
    obtain rfl := (ParameterizedPool.step_cases hPool).2.throws
    rcases call_heap hCall with rfl | ⟨_, _, _, _, _, hNone, _⟩
    · exact ⟨fun j t hj => (h.entry j t hj).congr List.prefix_rfl Iff.rfl Iff.rfl, h.listed⟩
    · simp at hNone

/-- A packaged task keeps its names, and its future what it was resolved
with. -/
def Keeps (t u : PackagedTask L) : Prop :=
  u.task = t.task ∧ u.call = t.call ∧ (t.shared ≠ .pending → u.shared = t.shared)

theorem Step.keeps {op : Op n L} (hStep : Step B s op s') {j : Nat} {t : PackagedTask L}
    (hj : s.heap[j]? = some t) : ∃ u, s'.heap[j]? = some u ∧ Keeps t u := by
  have hSame : Keeps t t := ⟨rfl, rfl, fun _ => rfl⟩
  cases hStep with
  | control c pool hPool =>
    obtain ⟨u, hu, hRel, -⟩ := getElem?_destroyAll hj (destroyed s.pool c)
    exact ⟨u, hu, hRel.names.1, hRel.names.2, hRel.resolved⟩
  | call op th _ hReady hCalls =>
    cases hCalls.effect with
    | scheduled token f args φ =>
      refine ⟨t, ?_, hSame⟩
      rw [Process.scheduled, List.getElem?_append_left (List.getElem?_eq_some_iff.mp hj).1]
      exact hj
    | _ => exact ⟨t, hj, hSame⟩
  | returned w e heap pool hCur hCall | threw w e x heap pool hCur hCall =>
    rcases call_heap hCall with rfl | ⟨i, u, hVal, hi, hPending, -, rfl⟩
    · exact ⟨t, hj, hSame⟩
    · by_cases hIdx : j = i
      · subst hIdx
        rw [hj, Option.some.injEq] at hi
        subst hi
        exact ⟨_, List.getElem?_set_self (List.getElem?_eq_some_iff.mp hj).1, rfl, rfl,
          fun hNot => absurd hPending hNot⟩
      · exact ⟨t, by rw [List.getElem?_set_ne (Ne.symm hIdx)]; exact hj, hSame⟩

theorem keeps_of_leads (hLeads : (system n B L).Leads s s') {j : Nat} {t : PackagedTask L}
    (hj : s.heap[j]? = some t) : ∃ u, s'.heap[j]? = some u ∧ Keeps t u := by
  refine System.Leads.induction (P := fun s' => ∃ u, s'.heap[j]? = some u ∧ Keeps t u)
    ⟨t, hj, rfl, rfl, fun _ => rfl⟩ ?_ hLeads
  rintro s₁ op s₂ - ⟨u, hu, hTask, hCall, hShared⟩ hStep
  obtain ⟨v, hv, hTask', hCall', hShared'⟩ := (step_cases hStep).keeps hu
  refine ⟨v, hv, hTask'.trans hTask, hCall'.trans hCall, fun hNot => ?_⟩
  have hFirst := hShared hNot
  exact (hShared' (hFirst ▸ hNot)).trans hFirst

/-- **Futures.** Every packaged task of a reachable state is in order. -/
theorem futures_ok (h : (system n B L).Reachable s) : FuturesOk s :=
  System.Reachable.induction (P := FuturesOk)
    ⟨fun _ _ hj => by simp [system] at hj, fun _ he => absurd he List.not_mem_nil⟩
    (fun _ _ _ hReach hOld hStep => (step_cases hStep).futuresOk (pool_reachable hReach) hOld) h

/-- A call of `schedule` throws and leaves nothing, or hands out the future
of a packaged task for its own callable and arguments. -/
theorem schedule_cases (h : (system n B L).Reachable s) {φ : Faults L} {th : Thread n}
    {token : Option Nat} {f : Callable L} {args : List L.Arg} {r : CallResult L Nat}
    (hReady : s.ready th = true) (hCall : schedule φ th token f args s = (r, s')) :
    ((∃ e, r = .threw e) ∧ s' = s) ∨
      (∃ j, r = .returned j ∧ s' = s.scheduled (th.producer token) ⟨f, args⟩ ∧
        j = s.heap.length) ∧ (system n B L).Reachable s' := by
  have hStep : (system n B L).step s (.schedule th token f args φ) = some s' := by
    simp [system, step, hReady, hCall]
  have hReach' : (system n B L).Reachable s' := h.step hStep
  rw [schedule_eq] at hCall
  split at hCall
  · exact .inl ⟨⟨_, (Prod.mk.inj hCall).1.symm⟩, (Prod.mk.inj hCall).2.symm⟩
  · split at hCall
    · exact .inl ⟨⟨_, (Prod.mk.inj hCall).1.symm⟩, (Prod.mk.inj hCall).2.symm⟩
    · split at hCall
      · exact .inl ⟨⟨_, (Prod.mk.inj hCall).1.symm⟩, (Prod.mk.inj hCall).2.symm⟩
      · exact .inr ⟨⟨_, (Prod.mk.inj hCall).1.symm, (Prod.mk.inj hCall).2.symm, rfl⟩, hReach'⟩

/-- A future holds an outcome exactly when its task is finished. -/
theorem Entry.ready_iff {j : Nat} {t : PackagedTask L} (h : Entry s j t) (o : Outcome L) :
    t.shared = .ready o ↔
      Finished s.pool.hist t.task ∧ o = t.call.callable.outcome t.call.args := by
  constructor
  · intro hReady
    by_cases hFin : Finished s.pool.hist t.task
    · have hOwn := h.finished hFin
      rw [hReady, Promise.ready.injEq] at hOwn
      exact ⟨hFin, hOwn⟩
    · by_cases hDrop : t.task ∈ s.pool.dropped.map Elem.id
      · simp [h.dropped hDrop] at hReady
      · simp [(h.waiting hFin hDrop).1] at hReady
  · rintro ⟨hFin, rfl⟩
    exact h.finished hFin

/-- The destructor breaks what was not run. -/
theorem Entry.broken_of_gone {j : Nat} {t : PackagedTask L} (h : Entry s j t)
    (hReach : (ParameterizedPool.system n B (Consumer L)).Reachable s.pool)
    (hLife : s.pool.life = .gone .dtor) (hNot : ¬ Finished s.pool.hist t.task) :
    t.shared = .broken := by
  obtain ⟨e, hAt, -⟩ := h.linked
  have hMem := (ParameterizedPool.conserved hReach).perm.mem_iff.mpr
    (List.mem_range.mpr (List.getElem?_eq_some_iff.mp hAt).1)
  rw [ParameterizedPool.tasks_nil hReach (by simp [hLife, Life.tasksAlive]), List.map_nil,
    List.nil_append] at hMem
  rcases List.mem_append.mp hMem with hTaken | hDrop
  · -- whoever took it has left `worker()`, so it is finished
    obtain ⟨w, hw⟩ := mem_taken.mp hTaken
    have hExited := ParameterizedPool.joined_exited hReach
      (ParameterizedPool.joined_of_gone hReach hLife w)
    rw [ParameterizedPool.takes_of_exited hReach hExited] at hw
    exact absurd (finished_iff.mpr ⟨w, hw⟩) hNot
  · exact h.dropped hDrop

/-- The future of a call of `schedule`, in every later state. -/
theorem scheduled_future {s₀ s₁ : Process n L} (h : (system n B L).Reachable s₀) {φ : Faults L}
    {th : Thread n} {token : Option Nat} {f : Callable L} {args : List L.Arg} {j : Nat}
    (hReady : s₀.ready th = true)
    (hCall : schedule φ th token f args s₀ = (.returned j, s₁))
    (hLeads : (system n B L).Leads s₁ s) :
    (system n B L).Reachable s ∧
      ∃ t, s.heap[j]? = some t ∧ t.call = ⟨f, args⟩ ∧ Entry s j t := by
  rcases schedule_cases h hReady hCall with ⟨⟨e, hEq⟩, -⟩ | ⟨⟨i, hEq, rfl, hIdx⟩, hReach₁⟩
  · simp at hEq
  rw [CallResult.returned.injEq] at hEq
  subst hEq hIdx
  obtain ⟨t, hj, -, hNames, -⟩ := keeps_of_leads hLeads
    (List.getElem?_concat_length (l := s₀.heap))
  have hReach := hReach₁.leads hLeads
  exact ⟨hReach, t, hj, hNames, (futures_ok hReach).entry _ _ hj⟩

end Process

/-- **The outcome of a future.** Let a call of `schedule` return the future
`j`. In every later state it holds an outcome if and only if a worker has
finished the task of that call, which is called at most once, and the
outcome is that of the call's own callable on its own arguments. When the
destructor has completed, the future of a task that was not run holds
`broken_promise`. -/
theorem future_outcome {B : Nat} {L : Types} {s₀ s₁ s : Process n L}
    (h : (Process.system n B L).Reachable s₀) {φ : Faults L} {th : Thread n}
    {token : Option Nat} {f : Callable L} {args : List L.Arg} {j : Nat}
    (hReady : s₀.ready th = true)
    (hCall : Process.schedule φ th token f args s₀ = (.returned j, s₁))
    (hLeads : (Process.system n B L).Leads s₁ s) :
    ∃ t e, s.heap[j]? = some t ∧ s.pool.accepted[t.task]? = some e ∧ e.val = .packaged j ∧
      (∀ o, t.shared = .ready o ↔ Finished s.pool.hist t.task ∧ o = f.outcome args) ∧
      (begun s.pool.hist).count t.task ≤ 1 ∧
      (s.pool.life = .gone .dtor → ¬ Finished s.pool.hist t.task → t.shared = .broken) := by
  obtain ⟨hReach, t, hj, hNames, hEntry⟩ := Process.scheduled_future h hReady hCall hLeads
  have hPool := Process.pool_reachable hReach
  obtain ⟨e, hAt, hVal⟩ := hEntry.linked
  refine ⟨t, e, hj, hAt, hVal, fun o => ?_,
    List.nodup_iff_count_le_one.mp (ParameterizedPool.begun_nodup hPool) _,
    hEntry.broken_of_gone hPool⟩
  rw [hEntry.ready_iff o, hNames]

/-- A built pool of two threads. -/
def beforeSchedule : Process 2 Process.natTypes :=
  ((Process.system 2 1 Process.natTypes).run (Process.system 2 1 Process.natTypes).init
    (Process.construct 2)).get rfl

/-- `schedule` of an addition, from a client. -/
def afterSchedule : Process 2 Process.natTypes :=
  (Process.schedule faultless (.client 0) none (Process.adder 3) [4] beforeSchedule).2

/-- Worker 1 runs the task, a second task is scheduled and stays in the
queue, and the pool is destroyed. -/
def runAndDestroy : List (Process.Op 2 Process.natTypes) :=
  Process.takeBatch second 1 ++
    [.invoke second, .schedule (.client 1) (some 0) (Process.thrower 5) [] faultless,
      .control (.destroy 0), .control (.loop second), .control (.check second),
      .control (.check first)] ++
    List.replicate 3 (.control .join) ++ List.replicate 3 (.control .teardown)

theorem future_outcome_runAndDestroy :
    ∃ t, (((Process.system 2 1 Process.natTypes).run afterSchedule
      runAndDestroy).get rfl).heap[0]? = some t ∧ t.shared = .ready (.value 7) := by
  have hCall : Process.schedule faultless (.client 0) none (Process.adder 3) [4] beforeSchedule =
      (.returned 0, afterSchedule) := rfl
  obtain ⟨t, e, hj, -, -, hOutcome, -⟩ := future_outcome (System.Reachable.get _ rfl) rfl hCall
    (System.Leads.get afterSchedule runAndDestroy rfl)
  refine ⟨t, hj, (hOutcome _).mpr ⟨⟨1, ?_⟩, rfl⟩⟩
  obtain rfl := Option.some.inj hj
  decide

-- ---------------------------------------------------------------------------
-- A stopped pool
-- ---------------------------------------------------------------------------

/-- **After `stop().await()`.** Take any call of `schedule` that has
completed, and a later state in which an `await()` of a client has returned
(before or after the call) and the object is alive. The call threw; or its
future holds the outcome of its task; or it is pending and the task is in
the queue. A pending future stays pending while the queue lives, for every
worker has left `worker()`, and is broken when the destructor has completed. -/
theorem awaited_futures {B : Nat} {L : Types} {s₀ s₁ s : Process n L}
    (h : (Process.system n B L).Reachable s₀) {φ : Faults L} {th : Thread n}
    {token : Option Nat} {f : Callable L} {args : List L.Arg} {r : CallResult L Nat}
    (hReady : s₀.ready th = true)
    (hCall : Process.schedule φ th token f args s₀ = (r, s₁))
    (hLeads : (Process.system n B L).Leads s₁ s) {k : Nat}
    (hAwaited : .awaited (.client k) ∈ s.pool.hist) (hLife : s.pool.life = .alive) :
    (∃ e, r = .threw e) ∨ ∃ j t, r = .returned j ∧ s.heap[j]? = some t ∧
      (t.shared = .ready (f.outcome args) ∧ t.task ∉ s.pool.tasks.map Elem.id ∨
        t.shared = .pending ∧ t.task ∈ s.pool.tasks.map Elem.id) ∧
      ∀ s', (Process.system n B L).Leads s s' → ∃ u, s'.heap[j]? = some u ∧
        (t.shared = .pending → (s'.pool.life.tasksAlive = true → u.shared = .pending) ∧
          (s'.pool.life = .gone .dtor → u.shared = .broken)) := by
  rcases Process.schedule_cases h hReady hCall with ⟨hThrew, -⟩ | ⟨⟨j, rfl, -, -⟩, -⟩
  · exact .inl hThrew
  obtain ⟨hReach, t, hj, hNames, hEntry⟩ := Process.scheduled_future h hReady hCall hLeads
  have hPool := Process.pool_reachable hReach
  have hExited := ParameterizedPool.awaited_exited hPool hAwaited
  obtain ⟨e, hAt, -⟩ := hEntry.linked
  obtain ⟨hPlaces, hExclusive⟩ := ParameterizedPool.accepted_of_exited hPool hExited
    (by simp [hLife, Life.tasksAlive]) t.task
  -- no worker is left to finish anything
  have hStill : ∀ s', (Process.system n B L).Leads s s' →
      (Finished s'.pool.hist t.task ↔ Finished s.pool.hist t.task) := by
    intro s' hLater
    have hQuiet := ParameterizedPool.begun_of_exited hPool hExited
      ((Process.simulation n B L).leads hLater)
    rw [finished_iff, finished_iff]
    refine exists_congr fun w => ?_
    have hOwn : own w s'.pool.hist = own w s.pool.hist := (hQuiet w).2
    rw [hOwn]
  refine .inr ⟨j, t, rfl, hj, ?_, fun s' hLater => ?_⟩
  · rcases hPlaces.mp (List.getElem?_eq_some_iff.mp hAt).1 with hFin | hQueued
    · exact .inl ⟨by rw [hEntry.finished hFin, hNames], fun hQueued => hExclusive ⟨hFin, hQueued⟩⟩
    · refine .inr ⟨(hEntry.waiting (fun hFin => hExclusive ⟨hFin, hQueued⟩) ?_).1, hQueued⟩
      exact (ParameterizedPool.conserved hPool).not_dropped hQueued
  · obtain ⟨u, hu, hSame, -, -⟩ := Process.keeps_of_leads hLater hj
    have hReach' := hReach.leads hLater
    have hPool' := Process.pool_reachable hReach'
    have hEntry' := (Process.futures_ok hReach').entry _ _ hu
    refine ⟨u, hu, fun hPending => ?_⟩
    have hNotFin : ¬ Finished s'.pool.hist u.task := by
      rw [hSame, hStill s' hLater]
      intro hFin
      rw [hEntry.finished hFin] at hPending
      simp at hPending
    refine ⟨fun hAlive => (hEntry'.waiting hNotFin ?_).1,
      fun hGone => hEntry'.broken_of_gone hPool' hGone hNotFin⟩
    rw [ParameterizedPool.dropped_eq_nil hPool' hAlive]
    exact List.not_mem_nil

/-- The worker leaves before it takes the task, and the client joins it. -/
def leftQueued : List (Process.Op 2 Process.natTypes) :=
  [.control (.stop (.client 0)), .control (.check first), .control (.check second),
    .control (.await (.client 0))] ++ List.replicate 3 (.control .join)

theorem awaited_futures_leftQueued :
    ∃ (j : Nat) (t : PackagedTask Process.natTypes),
      (((Process.system 2 1 Process.natTypes).run afterSchedule leftQueued).get rfl).heap[j]? =
        some t ∧ t.shared = .pending := by
  have hCall : Process.schedule faultless (.client 0) none (Process.adder 3) [4] beforeSchedule =
      (.returned 0, afterSchedule) := rfl
  rcases awaited_futures (k := 0) (System.Reachable.get _ rfl) rfl hCall
    (System.Leads.get afterSchedule leftQueued rfl) (by decide) rfl with
    ⟨e, hThrew⟩ | ⟨j, t, hEq, hj, -⟩
  · simp at hThrew
  · rw [CallResult.returned.injEq] at hEq
    subst hEq
    obtain rfl := Option.some.inj hj
    exact ⟨0, _, hj, rfl⟩

/-- A future can be pending on a stopped and awaited pool: its task was left
in the queue. -/
theorem pending_after_await :
    ¬ ∀ s : Process 2 Process.natTypes, (Process.system 2 1 Process.natTypes).Reachable s →
      .awaited (.client 0) ∈ s.pool.hist → s.pool.life = .alive →
      ∀ (j : Nat) (t : PackagedTask Process.natTypes), s.heap[j]? = some t →
        t.shared ≠ .pending := by
  intro hAll
  have hReach : (Process.system 2 1 Process.natTypes).Reachable afterSchedule :=
    System.Reachable.step (a := .schedule (.client 0) none (Process.adder 3) [4] faultless)
      (System.Reachable.get (Process.construct 2) rfl) rfl
  exact hAll _ (hReach.leads (System.Leads.get afterSchedule leftQueued rfl)) (by decide) rfl 0 _
    rfl rfl

end ThreadPool.Model
