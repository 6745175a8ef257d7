import ThreadPool.Model.Definitions
import ThreadPool.Model.Step

/-!
# ThreadPool — one worker

The `worker()` loop seen on its own. `Step.move` reads a step of the pool as
a move of each worker; the three facts about a frame are kept by every move:

* `Worker.Shape` — the array is filled from the front, the counters are in
  range (`Move.shape`);
* `Worker.Traced` — tasks are started in the order they were taken, and each
  is finished before the next is started (`Move.traced`);
* `Worker.InTurn` — inside one turn of the `while` loop the calls are the
  first slots of what this turn dequeued (`Move.inTurn`).

`worker_ok` states all three for every worker of every reachable state.
-/

namespace ThreadPool.Model

open ThreadPool.Lib

variable {n : Nat} {τ : Type}

-- ---------------------------------------------------------------------------
-- Histories grow
-- ---------------------------------------------------------------------------

@[simp] theorem own_append (w : Fin n) (h h' : List (Event n)) :
    own w (h ++ h') = own w h ++ own w h' := by
  simp [own]

theorem own_map_self (w : Fin n) (evs : List WorkerEvent) :
    own w (evs.map (Event.worker w)) = evs := by
  induction evs with
  | nil => rfl
  | cons e evs ih => simpa [own, Event.of] using ih

theorem own_map_ne {w w' : Fin n} (hNe : w' ≠ w) (evs : List WorkerEvent) :
    own w (evs.map (Event.worker w')) = [] := by
  simp [own, Event.of, hNe]

@[simp] theorem takes_append (l l' : List WorkerEvent) : takes (l ++ l') = takes l ++ takes l' := by
  simp [takes]

@[simp] theorem starts_append (l l' : List WorkerEvent) :
    starts (l ++ l') = starts l ++ starts l' := by
  simp [starts]

@[simp] theorem finishes_append (l l' : List WorkerEvent) :
    finishes (l ++ l') = finishes l ++ finishes l' := by
  simp [finishes]

@[simp] theorem takes_singleton (e : WorkerEvent) : takes [e] = e.taken.toList := by
  cases e <;> rfl

@[simp] theorem starts_singleton (e : WorkerEvent) : starts [e] = e.started.toList := by
  cases e <;> rfl

@[simp] theorem finishes_singleton (e : WorkerEvent) : finishes [e] = e.finished.toList := by
  cases e <;> rfl

@[simp] theorem iteration_enter (evs : List WorkerEvent) : iteration (evs ++ [.enter]) = [] :=
  since_snoc_of_pos (by simp)

@[simp] theorem iteration_snoc {evs : List WorkerEvent} {e : WorkerEvent} (hNe : e ≠ .enter) :
    iteration (evs ++ [e]) = iteration evs ++ [e] :=
  since_snoc_of_neg (by simpa using hNe)

theorem mem_own {w : Fin n} {h : List (Event n)} {e : WorkerEvent} :
    e ∈ own w h ↔ .worker w e ∈ h := by
  simp only [own, List.mem_filterMap]
  constructor
  · rintro ⟨ev, hMem, hOf⟩
    cases ev with
    | worker w' e' =>
      simp only [Event.of, Option.ite_none_right_eq_some, Option.some.injEq] at hOf
      obtain ⟨rfl, rfl⟩ := hOf
      exact hMem
    | _ => simp [Event.of] at hOf
  · intro hMem
    exact ⟨_, hMem, by simp [Event.of]⟩

theorem mem_takes {evs : List WorkerEvent} {t : Nat} : t ∈ takes evs ↔ .take t ∈ evs := by
  simp only [takes, List.mem_filterMap]
  constructor
  · rintro ⟨e, hMem, hEq⟩
    cases e <;> simp only [WorkerEvent.taken, Option.some.injEq, reduceCtorEq] at hEq
    exact hEq ▸ hMem
  · exact fun hMem => ⟨_, hMem, rfl⟩

theorem mem_starts {evs : List WorkerEvent} {t : Nat} : t ∈ starts evs ↔ .start t ∈ evs := by
  simp only [starts, List.mem_filterMap]
  constructor
  · rintro ⟨e, hMem, hEq⟩
    cases e <;> simp only [WorkerEvent.started, Option.some.injEq, reduceCtorEq] at hEq
    exact hEq ▸ hMem
  · exact fun hMem => ⟨_, hMem, rfl⟩

theorem mem_finishes {evs : List WorkerEvent} {t : Nat} : t ∈ finishes evs ↔ .finish t ∈ evs := by
  simp only [finishes, List.mem_filterMap]
  constructor
  · rintro ⟨e, hMem, hEq⟩
    cases e <;> simp only [WorkerEvent.finished, Option.some.injEq, reduceCtorEq] at hEq
    exact hEq ▸ hMem
  · exact fun hMem => ⟨_, hMem, rfl⟩

-- ---------------------------------------------------------------------------
-- Filled arrays
-- ---------------------------------------------------------------------------

theorem Filled.replicate (B : Nat) : Filled B (List.replicate B none) ([] : List (Elem n τ)) :=
  ⟨by simp, Nat.zero_le _⟩

theorem Filled.batch_eq {B : Nat} {r : List (Option (Elem n τ))} {es : List (Elem n τ)}
    (h : Filled B r es) : r.filterMap id = es := by
  rw [h.eq, List.filterMap_append, List.filterMap_map, List.filterMap_replicate_of_none rfl,
    List.append_nil]
  exact List.filterMap_some

/-- The next free slot is the one after the filled ones. -/
theorem Filled.set {B : Nat} {r : List (Option (Elem n τ))} {es : List (Elem n τ)}
    (h : Filled B r es) (hRoom : es.length < B) (e : Elem n τ) :
    Filled B (r.set es.length (some e)) (es ++ [e]) := by
  refine ⟨?_, by rw [List.length_append, List.length_singleton]; omega⟩
  obtain ⟨d, hd⟩ : ∃ d, B - es.length = d + 1 := ⟨B - es.length - 1, by omega⟩
  have hRest : B - (es ++ [e]).length = d := by
    rw [List.length_append, List.length_singleton]
    omega
  rw [h.eq, hRest, hd, List.set_append_right _ _ (by simp), List.length_map, Nat.sub_self,
    List.replicate_succ, List.set_cons_zero]
  simp

theorem Filled.getElem? {B : Nat} {r : List (Option (Elem n τ))} {es : List (Elem n τ)}
    (h : Filled B r es) {i : Nat} (hi : i < es.length) : r[i]? = some (some es[i]) := by
  rw [h.eq, List.getElem?_append_left (by simpa using hi)]
  simp [hi]

theorem Filled.getElem?_eq {B : Nat} {r : List (Option (Elem n τ))} {es : List (Elem n τ)}
    (h : Filled B r es) {i : Nat} {e : Elem n τ} (hSlot : r[i]? = some (some e)) :
    es[i]? = some e := by
  rw [h.eq] at hSlot
  by_cases hi : i < es.length
  · rw [List.getElem?_append_left (by simpa using hi), List.getElem?_map] at hSlot
    simpa using hSlot
  · rw [List.getElem?_append_right (by simpa using hi), List.getElem?_replicate] at hSlot
    simp at hSlot

theorem Filled.slot_iff {B : Nat} {r : List (Option (Elem n τ))} {es : List (Elem n τ)}
    (h : Filled B r es) {i : Nat} {e : Elem n τ} : r[i]? = some (some e) ↔ es[i]? = some e := by
  refine ⟨h.getElem?_eq, fun hAt => ?_⟩
  obtain ⟨hLen, rfl⟩ := List.getElem?_eq_some_iff.mp hAt
  exact h.getElem? hLen

theorem Worker.Shape.slot_iff {B : Nat} {x : Worker n τ} (h : x.Shape B) {i : Nat}
    {e : Elem n τ} : x.runnable[i]? = some (some e) ↔ x.batch[i]? = some e := by
  unfold Worker.Shape at h
  split at h
  · exact h.1.slot_iff
  · exact h.1.slot_iff
  · exact h.1.slot_iff
  · simp [Worker.batch, h]

-- ---------------------------------------------------------------------------
-- Moves of a worker
-- ---------------------------------------------------------------------------

/-- What a step can do to one worker, and what the history records of it. -/
inductive Move (B : Nat) (s : ParameterizedPool n τ) (x : Worker n τ) :
    Worker n τ → List WorkerEvent → Prop
  | rest : Move B s x x []
  | spawn (hPc : x.pc = .unstarted) : Move B s x ⟨.check, []⟩ []
  | exit (hPc : x.pc = .check) (hDone : s.done = true) : Move B s x ⟨.exited, x.runnable⟩ []
  | enter (hPc : x.pc = .check) (hDone : s.done = false) :
      Move B s x ⟨.waiting 0, List.replicate B none⟩ [.enter]
  | dequeueElem (c : Nat) (e : Elem n τ) (hPc : x.pc = .waiting c) (hRoom : c < B)
      (hMem : e ∈ s.tasks) :
      Move B s x ⟨.waiting (c + 1), x.runnable.set c (some e)⟩ [.take e.id]
  | dequeueReturn (c : Nat) (hPc : x.pc = .waiting c) :
      Move B s x ⟨.looping 0 c, x.runnable⟩ [.dequeued c]
  | invoke (i k : Nat) (e : Elem n τ) (hPc : x.pc = .looping i k) (hLt : i < k)
      (hSlot : x.runnable[i]? = some (some e)) :
      Move B s x ⟨.invoking i k, x.runnable⟩ [.start e.id]
  | again (i k : Nat) (hPc : x.pc = .looping i k) (hGe : k ≤ i) : Move B s x ⟨.check, []⟩ []
  | taskReturn (i k : Nat) (e : Elem n τ) (hPc : x.pc = .invoking i k)
      (hSlot : x.runnable[i]? = some (some e)) :
      Move B s x ⟨.looping (i + 1) k, x.runnable⟩ [.finish e.id]

namespace Worker

variable {B : Nat} {x y : Worker n τ} {evs new : List WorkerEvent}

@[simp] theorem batch_mk (pc : Pc) : batch ⟨pc, x.runnable⟩ = x.batch := rfl

/-- A fresh array is empty. -/
@[simp] theorem batch_replicate (pc : Pc) (B : Nat) :
    batch (⟨pc, List.replicate B none⟩ : Worker n τ) = [] :=
  (Filled.replicate B).batch_eq

theorem batch_of_nil (h : x.runnable = []) : x.batch = [] := by
  simp [batch, h]

theorem pending_of_nil (h : x.runnable = []) : x.pending = [] := by
  simp [pending, batch_of_nil h]

theorem running_of_nil (h : x.runnable = []) : x.running = [] := by
  unfold running
  split <;> simp [batch_of_nil h]

theorem Shape.waiting {c : Nat} (h : x.Shape B) (hPc : x.pc = .waiting c) :
    Filled B x.runnable x.batch ∧ x.batch.length = c := by
  simpa only [Worker.Shape, hPc] using h

theorem Shape.looping {i k : Nat} (h : x.Shape B) (hPc : x.pc = .looping i k) :
    Filled B x.runnable x.batch ∧ x.batch.length = k ∧ i ≤ k := by
  simpa only [Worker.Shape, hPc] using h

theorem Shape.invoking {i k : Nat} (h : x.Shape B) (hPc : x.pc = .invoking i k) :
    Filled B x.runnable x.batch ∧ x.batch.length = k ∧ i < k := by
  simpa only [Worker.Shape, hPc] using h

/-- Below the counter `available` every slot is filled. -/
theorem Shape.slot_of_looping {i k : Nat} (h : x.Shape B) (hPc : x.pc = .looping i k)
    (hLt : i < k) : ∃ e, x.runnable[i]? = some (some e) := by
  obtain ⟨hFilled, rfl, -⟩ := h.looping hPc
  exact ⟨_, hFilled.getElem? hLt⟩

/-- So is the slot being called. -/
theorem Shape.slot_of_invoking {i k : Nat} (h : x.Shape B) (hPc : x.pc = .invoking i k) :
    ∃ e, x.runnable[i]? = some (some e) := by
  obtain ⟨hFilled, rfl, hLt⟩ := h.invoking hPc
  exact ⟨_, hFilled.getElem? hLt⟩

/-- When the loop is over nothing is left to call. -/
theorem Shape.pending_nil {i k : Nat} (h : x.Shape B) (hPc : x.pc = .looping i k)
    (hGe : k ≤ i) : x.pending = [] := by
  obtain ⟨-, rfl, -⟩ := h.looping hPc
  simpa only [pending, cursor, hPc] using List.drop_eq_nil_of_le hGe

/-- A slot that is called or about to be called is an element of the batch. -/
theorem Shape.slot {i : Nat} {e : Elem n τ} (hShape : x.Shape B)
    (hSlot : x.runnable[i]? = some (some e)) : x.batch.drop i = e :: x.batch.drop (i + 1) := by
  obtain ⟨hLen, hGet⟩ := List.getElem?_eq_some_iff.mp (hShape.slot_iff.mp hSlot)
  rw [List.drop_eq_getElem_cons hLen, hGet]

/-- A move that takes, starts and finishes nothing. -/
theorem Traced.quiet (hTraced : x.Traced evs) (hPending : y.pending = x.pending)
    (hRunning : y.running = x.running) (hTakes : takes new = []) (hStarts : starts new = [])
    (hFinishes : finishes new = []) : y.Traced (evs ++ new) := by
  constructor
  · rw [takes_append, starts_append, hTakes, hStarts, hPending, List.append_nil,
      List.append_nil, hTraced.takes_eq]
  · rw [starts_append, finishes_append, hStarts, hFinishes, hRunning, List.append_nil,
      List.append_nil, hTraced.starts_eq]

end Worker

section Moves

variable {B : Nat} {s : ParameterizedPool n τ} {x y : Worker n τ} {evs new : List WorkerEvent}

/-- Every move keeps the array in shape. -/
theorem Move.shape (hMove : Move B s x y new) (hShape : x.Shape B) : y.Shape B := by
  cases hMove with
  | rest => exact hShape
  | spawn | again => rfl
  | exit hPc => simpa only [Worker.Shape, hPc] using hShape
  | enter =>
    simp only [Worker.Shape, Worker.batch_replicate, List.length_nil, and_true]
    exact Filled.replicate B
  | dequeueElem c e hPc hRoom =>
    obtain ⟨hFilled, rfl⟩ := hShape.waiting hPc
    have hSet := hFilled.set hRoom e
    simp only [Worker.Shape, Worker.batch] at hSet ⊢
    rw [hSet.batch_eq]
    exact ⟨hSet, by simp⟩
  | dequeueReturn c hPc =>
    obtain ⟨hFilled, hLen⟩ := hShape.waiting hPc
    exact ⟨hFilled, hLen, Nat.zero_le _⟩
  | invoke i k e hPc hLt =>
    obtain ⟨hFilled, hLen, -⟩ := hShape.looping hPc
    exact ⟨hFilled, hLen, hLt⟩
  | taskReturn i k e hPc => exact hShape.invoking hPc

/-- Every move keeps the order of a worker. -/
theorem Move.traced (hMove : Move B s x y new) (hShape : x.Shape B) (hTraced : x.Traced evs) :
    y.Traced (evs ++ new) := by
  cases hMove with
  | rest => exact hTraced.quiet rfl rfl rfl rfl rfl
  | spawn hPc =>
    have hNil : x.runnable = [] := by simpa only [Worker.Shape, hPc] using hShape
    exact hTraced.quiet (by rw [Worker.pending_of_nil hNil]; rfl)
      (by rw [Worker.running_of_nil hNil]; rfl) rfl rfl rfl
  | exit hPc =>
    exact hTraced.quiet (by simp [Worker.pending, Worker.cursor, hPc])
      (by simp [Worker.running, hPc]) rfl rfl rfl
  | enter hPc =>
    have hNil : x.runnable = [] := by simpa only [Worker.Shape, hPc] using hShape
    refine hTraced.quiet ?_ (by rw [Worker.running_of_nil hNil]; rfl) rfl rfl rfl
    rw [Worker.pending_of_nil hNil, Worker.pending, Worker.batch_replicate, List.drop_nil]
  | dequeueElem c e hPc hRoom =>
    -- the batch grows at its end, and no slot of it is called yet
    obtain ⟨hFilled, rfl⟩ := hShape.waiting hPc
    have hPending : Worker.pending ⟨.waiting (x.batch.length + 1),
        x.runnable.set x.batch.length (some e)⟩ = x.pending ++ [e] := by
      simp only [Worker.pending, Worker.cursor, hPc, List.drop_zero]
      exact (hFilled.set hRoom e).batch_eq
    constructor
    · rw [takes_append, starts_append, hTraced.takes_eq, hPending]
      simp [WorkerEvent.taken, WorkerEvent.started]
    · have hRunning : x.running = [] := by simp [Worker.running, hPc]
      rw [starts_append, finishes_append, hTraced.starts_eq, hRunning]
      rfl
  | dequeueReturn c hPc =>
    exact hTraced.quiet (by simp [Worker.pending, Worker.cursor, hPc])
      (by simp [Worker.running, hPc]) rfl rfl rfl
  | invoke i k e hPc hLt hSlot =>
    -- the slot at the cursor leaves the pending ones and is being called
    have hDrop := hShape.slot hSlot
    have hPending : x.pending = e :: Worker.pending ⟨.invoking i k, x.runnable⟩ := by
      simpa [Worker.pending, Worker.cursor, hPc] using hDrop
    have hRunning : Worker.running ⟨.invoking i k, x.runnable⟩ = [e] := by
      simp [Worker.running, hDrop]
    have hIdle : x.running = [] := by simp [Worker.running, hPc]
    constructor
    · rw [takes_append, starts_append, hTraced.takes_eq, hPending]
      simp [WorkerEvent.taken, WorkerEvent.started]
    · rw [starts_append, finishes_append, hTraced.starts_eq, hIdle, hRunning]
      simp [WorkerEvent.started, WorkerEvent.finished]
  | again i k hPc hGe =>
    have hNone := hShape.pending_nil hPc hGe
    exact hTraced.quiet (by rw [hNone]; rfl) (by simp [Worker.running, hPc]) rfl rfl rfl
  | taskReturn i k e hPc hSlot =>
    have hDrop := hShape.slot hSlot
    have hPending : Worker.pending ⟨.looping (i + 1) k, x.runnable⟩ = x.pending := by
      simp [Worker.pending, Worker.cursor, hPc]
    have hRunning : x.running = [e] := by simp [Worker.running, hPc, hDrop]
    constructor
    · rw [takes_append, starts_append, hTraced.takes_eq, hPending]
      simp [WorkerEvent.taken, WorkerEvent.started]
    · rw [starts_append, finishes_append, hTraced.starts_eq, hRunning]
      simp [Worker.running, WorkerEvent.started, WorkerEvent.finished]

/-- Every move keeps the calls of a turn to what the turn dequeued. -/
theorem Move.inTurn (hMove : Move B s x y new) (hShape : x.Shape B) (hTurn : x.InTurn evs) :
    y.InTurn (evs ++ new) := by
  cases hMove with
  | rest => simpa using hTurn
  | spawn hPc | exit hPc => simpa [Worker.InTurn, hPc] using hTurn
  | enter =>
    simp only [Worker.InTurn, iteration_enter, Worker.batch_replicate]
    exact ⟨rfl, rfl⟩
  | dequeueElem c e hPc hRoom =>
    obtain ⟨hFilled, rfl⟩ := hShape.waiting hPc
    simp only [Worker.InTurn, Worker.cursor, hPc, List.take_zero] at hTurn
    have hBatch : Worker.batch ⟨.waiting (x.batch.length + 1),
        x.runnable.set x.batch.length (some e)⟩ = x.batch ++ [e] :=
      (hFilled.set hRoom e).batch_eq
    simp [Worker.InTurn, Worker.cursor, hBatch, hTurn, WorkerEvent.taken, WorkerEvent.started]
  | dequeueReturn c hPc =>
    simp only [Worker.InTurn, Worker.cursor, hPc] at hTurn
    simp [Worker.InTurn, Worker.cursor, hTurn, WorkerEvent.taken, WorkerEvent.started]
  | invoke i k e hPc hLt hSlot =>
    have hDrop := hShape.slot hSlot
    simp only [Worker.InTurn, Worker.cursor, hPc] at hTurn
    -- the calls of the turn grow by the slot at the cursor
    have hTake : x.batch.take (i + 1) = x.batch.take i ++ [e] := by
      rw [List.take_add, hDrop]
      rfl
    simp [Worker.InTurn, Worker.cursor, hTurn, hTake, WorkerEvent.taken, WorkerEvent.started]
  | again i k hPc hGe =>
    obtain ⟨-, rfl, -⟩ := hShape.looping hPc
    simp only [Worker.InTurn, Worker.cursor, hPc] at hTurn
    simp only [Worker.InTurn, List.append_nil]
    rw [hTurn.1, hTurn.2, List.take_of_length_le (by omega)]
  | taskReturn i k e hPc =>
    simp only [Worker.InTurn, Worker.cursor, hPc] at hTurn
    simp [Worker.InTurn, Worker.cursor, hTurn, WorkerEvent.taken, WorkerEvent.started]

/-- The array of a worker receives only elements of the queue. -/
theorem Move.batch_subset (hMove : Move B s x y new) {e : Elem n τ} (hMem : e ∈ y.batch) :
    e ∈ x.batch ∨ e ∈ s.tasks := by
  cases hMove with
  | rest | exit | dequeueReturn | invoke | taskReturn => exact .inl hMem
  | spawn | again => exact absurd hMem List.not_mem_nil
  | enter =>
    rw [Worker.batch_replicate] at hMem
    exact absurd hMem List.not_mem_nil
  | dequeueElem c e' hPc hRoom hQueued =>
    simp only [Worker.batch, List.mem_filterMap, id_eq, exists_eq_right] at hMem ⊢
    rcases List.mem_or_eq_of_mem_set hMem with hOld | hNew
    · exact .inl hOld
    · rw [Option.some.injEq] at hNew
      exact .inr (hNew ▸ hQueued)

end Moves

/-- The three facts about a worker and its history. -/
structure WorkerOk (B : Nat) (x : Worker n τ) (evs : List WorkerEvent) : Prop where
  shape : x.Shape B
  traced : x.Traced evs
  inTurn : x.InTurn evs

theorem WorkerOk.unstarted (B : Nat) : WorkerOk B (⟨.unstarted, []⟩ : Worker n τ) [] where
  shape := rfl
  traced := ⟨rfl, rfl⟩
  inTurn := rfl

theorem Move.workerOk {B : Nat} {s : ParameterizedPool n τ} {x y : Worker n τ}
    {evs new : List WorkerEvent} (hMove : Move B s x y new) (hOk : WorkerOk B x evs) :
    WorkerOk B y (evs ++ new) where
  shape := hMove.shape hOk.shape
  traced := hMove.traced hOk.shape hOk.traced
  inTurn := hMove.inTurn hOk.shape hOk.inTurn

-- ---------------------------------------------------------------------------
-- Steps as moves
-- ---------------------------------------------------------------------------

namespace ParameterizedPool

variable {B : Nat} {s s' : ParameterizedPool n τ}

/-- During construction the threads from index `k` on do not exist. -/
def Fresh (s : ParameterizedPool n τ) : Prop :=
  ∀ k, s.life = .constructing k → ∀ w : Fin n, k ≤ w.val →
    s.workers w = ⟨.unstarted, []⟩ ∧ s.threads w = .absent

private theorem Fresh.setWorker {w : Fin n} {x : Worker n τ} {evs : List WorkerEvent}
    (hFresh : s.Fresh) (hPc : (s.workers w).pc ≠ .unstarted) : (s.setWorker w x evs).Fresh := by
  intro k hLife v hv
  have hNe : v ≠ w := by
    rintro rfl
    exact hPc (by rw [(hFresh k hLife v hv).1])
  have hOld := hFresh k hLife v hv
  exact ⟨by rw [setWorker_of_ne hNe]; exact hOld.1, hOld.2⟩

private theorem Fresh.of_life (h : ∀ k, s'.life ≠ .constructing k) : s'.Fresh :=
  fun k hLife => absurd hLife (h k)

theorem Step.fresh {a : Action n τ} (hStep : Step B s a s') (hFresh : s.Fresh) : s'.Fresh := by
  cases hStep with
  | spawn k hLt hLife =>
    intro k' hLife' v hv
    simp only [Life.constructing.injEq] at hLife'
    have hNe : v ≠ ⟨k, hLt⟩ := by
      rintro rfl
      simp only at hv
      omega
    simpa [Function.update_of_ne hNe] using hFresh k hLife v (by omega)
  | built | spawnThrows | destroy | teardownDone | teardownTasks | teardownThreads =>
    exact .of_life (by simp)
  | exit w hPc | enter w hPc | dequeueReturn w _ hPc | invoke w _ _ _ hPc | again w _ _ hPc
  | taskReturn w _ _ _ hPc => exact hFresh.setWorker (by simp [hPc])
  | dequeueElem w i c e hPc =>
    have hSet : (s.setWorker w ⟨.waiting (c + 1), (s.workers w).runnable.set c (some e)⟩
        [.take e.id]).Fresh := hFresh.setWorker (by simp [hPc])
    exact hSet
  | stop | await | enqueue | abort => exact hFresh
  | joined th i hLt hAwait hThread =>
    intro k hLife v hv
    -- an entry that is joinable is not one still to be created
    have hNe : v ≠ ⟨i, hLt⟩ := by
      rintro rfl
      rw [(hFresh k hLife _ hv).2] at hThread
      exact absurd hThread (by simp)
    simpa [Function.update_of_ne hNe] using hFresh k hLife v hv
  | joinThrows | awaited =>
    intro k hLife v hv
    refine hFresh k ?_ v hv
    simp only [leaveAwait] at hLife
    split at hLife
    · simp at hLife
    · exact hLife

theorem own_setWorker (s : ParameterizedPool n τ) (w : Fin n) (x : Worker n τ)
    (evs : List WorkerEvent) : own w (s.setWorker w x evs).hist = own w s.hist ++ evs := by
  simp [setWorker, own_map_self]

/-- What the history of worker `w` grows by, and the move behind it. -/
def Moves (B : Nat) (s s' : ParameterizedPool n τ) (w : Fin n) : Prop :=
  ∃ evs, own w s'.hist = own w s.hist ++ evs ∧ Move B s (s.workers w) (s'.workers w) evs

theorem Moves.rest {w : Fin n} (hWorker : s'.workers w = s.workers w)
    (hOwn : own w s'.hist = own w s.hist) : Moves B s s' w :=
  ⟨[], by rw [hOwn, List.append_nil], hWorker ▸ .rest⟩

/-- A step that moves one worker only. -/
theorem Moves.setWorker {w : Fin n} {x : Worker n τ} {evs : List WorkerEvent}
    (hMove : Move B s (s.workers w) x evs) (hWorkers : s'.workers = (s.setWorker w x evs).workers)
    (hHist : s'.hist = (s.setWorker w x evs).hist) (v : Fin n) : Moves B s s' v := by
  by_cases hEq : w = v
  · subst hEq
    refine ⟨evs, by rw [hHist, own_setWorker], ?_⟩
    rw [hWorkers, setWorker_self]
    exact hMove
  · refine .rest ?_ ?_
    · rw [hWorkers, setWorker_of_ne (Ne.symm hEq)]
    · rw [hHist, ParameterizedPool.setWorker, own_append, own_map_ne hEq, List.append_nil]

/-- **Steps as moves.** A step moves each worker along its loop, or leaves it. -/
theorem Step.move {a : Action n τ} (hStep : Step B s a s') (hFresh : s.Fresh) (w : Fin n) :
    Moves B s s' w := by
  cases hStep with
  | spawn k hLt hLife =>
    have hOld := (hFresh k hLife ⟨k, hLt⟩ le_rfl).1
    refine Moves.setWorker (w := ⟨k, hLt⟩) (.spawn (by rw [hOld])) ?_ ?_ w
    · rfl
    · simp [setWorker]
  | exit w' hPc hDone => exact .setWorker (.exit hPc hDone) rfl rfl w
  | enter w' hPc hDone => exact .setWorker (.enter hPc hDone) rfl rfl w
  | dequeueElem w' i c e hPc hElem hRoom =>
    exact .setWorker (.dequeueElem c e hPc hRoom (List.mem_of_getElem? hElem)) rfl rfl w
  | dequeueReturn w' c hPc => exact .setWorker (.dequeueReturn c hPc) rfl rfl w
  | invoke w' i k e hPc hLt hSlot => exact .setWorker (.invoke i k e hPc hLt hSlot) rfl rfl w
  | again w' i k hPc hGe => exact .setWorker (.again i k hPc hGe) rfl rfl w
  | taskReturn w' i k e hPc hSlot => exact .setWorker (.taskReturn i k e hPc hSlot) rfl rfl w
  | await | joinThrows | awaited | destroy =>
    exact .rest rfl (by simp [leaveAwait, own, Event.of])
  | _ => exact .rest rfl rfl

-- ---------------------------------------------------------------------------
-- Every worker of every reachable state
-- ---------------------------------------------------------------------------

theorem fresh_of_reachable (h : (system n B τ).Reachable s) : s.Fresh :=
  System.Reachable.induction (P := Fresh) (fun _ _ _ _ => ⟨rfl, rfl⟩)
    (fun _ _ _ _ hFresh hStep => (step_cases hStep).2.fresh hFresh) h

/-- **One worker.** Every worker of a reachable state is in shape, works in
the order it takes tasks, and calls what its current turn dequeued. -/
theorem worker_ok (h : (system n B τ).Reachable s) (w : Fin n) :
    WorkerOk B (s.workers w) (own w s.hist) := by
  refine System.Reachable.induction (P := fun s => WorkerOk B (s.workers w) (own w s.hist))
    (WorkerOk.unstarted B) ?_ h
  intro s a s' hReach hOk hStep
  obtain ⟨evs, hOwn, hMove⟩ := (step_cases hStep).2.move (fresh_of_reachable hReach) w
  rw [hOwn]
  exact hMove.workerOk hOk

end ParameterizedPool

end ThreadPool.Model
