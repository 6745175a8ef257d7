import Mathlib.Algebra.BigOperators.Fin
import Mathlib.Algebra.Order.BigOperators.Group.Finset
import ThreadPool.Model.Lifecycle

/-!
# ThreadPool — shutdown

What may still happen once `done_` is set. A worker that is past the test of
the flag finishes its turn of the loop and leaves; the rest of its turn is
bounded by what it can still do (`Worker.budget`, `Worker.calls`), and every
move pays from that bound (`Move.spent`).

* `spent_of_leads` — the bound over a whole continuation;
* `shutdown` — at most one dequeue and `BULK_MAX_ITEMS` calls per worker,
  nothing taken is lost, and after a returned `await()` all that was taken
  is finished and nothing is called any more.
-/

namespace ThreadPool.Model

open ThreadPool.Lib
open Process (first second)

variable {n : Nat} {τ : Type}

-- ---------------------------------------------------------------------------
-- What a worker can still do
-- ---------------------------------------------------------------------------

/-- The event is the return of a dequeue. -/
def WorkerEvent.isDequeue : WorkerEvent → Bool
  | .dequeued _ => true
  | _ => false

/-- How many dequeues have returned. -/
def dequeues (evs : List WorkerEvent) : Nat := evs.countP WorkerEvent.isDequeue

namespace Worker

/-- How many slots the worker can still call without testing the flag. -/
def budget (B : Nat) (x : Worker n τ) : Nat :=
  match x.pc with
  | .waiting _ => B
  | .looping i k => k - i
  | .invoking i k => k - (i + 1)
  | _ => 0

/-- How many dequeues can still return without a test of the flag. -/
def calls (x : Worker n τ) : Nat :=
  match x.pc with
  | .waiting _ => 1
  | _ => 0

theorem budget_le {B : Nat} {x : Worker n τ} (hShape : x.Shape B) : x.budget B ≤ B := by
  unfold budget
  unfold Shape at hShape
  split
  · exact le_rfl
  · next i k hPc =>
    simp only [hPc] at hShape
    have hLe := hShape.1.le
    omega
  · next i k hPc =>
    simp only [hPc] at hShape
    have hLe := hShape.1.le
    omega
  · exact Nat.zero_le B

theorem calls_le (x : Worker n τ) : x.calls ≤ 1 := by
  unfold calls
  split <;> omega

end Worker

/-- A worker went from `x` to `y`, recording `evs`, on what it had. -/
structure Spent (B : Nat) (x y : Worker n τ) (evs : List WorkerEvent) : Prop where
  starts : (starts evs).length + y.budget B ≤ x.budget B
  dequeues : dequeues evs + y.calls ≤ x.calls
  enter : .enter ∉ evs

theorem Spent.refl (B : Nat) (x : Worker n τ) : Spent B x x [] where
  starts := by simp [Model.starts]
  dequeues := by simp [Model.dequeues]
  enter := List.not_mem_nil

theorem Spent.trans {B : Nat} {x y z : Worker n τ} {evs new : List WorkerEvent}
    (h₁ : Spent B x y evs) (h₂ : Spent B y z new) : Spent B x z (evs ++ new) where
  starts := by
    have hOld := h₁.starts
    have hNew := h₂.starts
    rw [starts_append, List.length_append]
    omega
  dequeues := by
    have hOld := h₁.dequeues
    have hNew := h₂.dequeues
    rw [Model.dequeues, List.countP_append]
    simp only [Model.dequeues] at hOld hNew
    omega
  enter := by simp [h₁.enter, h₂.enter]

/-- With the flag set, every move is paid for. -/
theorem Move.spent {B : Nat} {s : ParameterizedPool n τ} {x y : Worker n τ}
    {evs : List WorkerEvent} (hMove : Move B s x y evs) (hDone : s.done = true)
    (hShape : x.Shape B) : Spent B x y evs := by
  cases hMove with
  | rest => exact .refl B x
  | spawn hPc | exit hPc | again _ _ hPc =>
    -- the worker goes back to the test of the flag, or leaves
    exact ⟨by simp [starts, Worker.budget], by simp [dequeues, Worker.calls], by simp⟩
  | enter hPc hClear =>
    rw [hDone] at hClear
    simp at hClear
  | dequeueElem c e hPc =>
    exact ⟨by simp [WorkerEvent.started, Worker.budget, hPc],
      by simp [dequeues, WorkerEvent.isDequeue, Worker.calls, hPc], by simp⟩
  | dequeueReturn c hPc =>
    obtain ⟨hFilled, rfl⟩ := hShape.waiting hPc
    have hLe := hFilled.le
    exact ⟨by simp [WorkerEvent.started, Worker.budget, hPc]; omega,
      by simp [dequeues, WorkerEvent.isDequeue, Worker.calls, hPc], by simp⟩
  | invoke i k e hPc hLt =>
    exact ⟨by simp [WorkerEvent.started, Worker.budget, hPc]; omega,
      by simp [dequeues, WorkerEvent.isDequeue, Worker.calls], by simp⟩
  | taskReturn i k e hPc =>
    exact ⟨by simp [WorkerEvent.started, Worker.budget, hPc],
      by simp [dequeues, WorkerEvent.isDequeue, Worker.calls], by simp⟩

-- ---------------------------------------------------------------------------
-- All workers together
-- ---------------------------------------------------------------------------

/-- Every call is made by one worker. -/
theorem length_begun (h : List (Event n)) :
    (begun h).length = ∑ w, (starts (own w h)).length := by
  induction h with
  | nil => simp [begun, starts, own]
  | cons ev h ih =>
    have hBegun : begun (ev :: h) = begun [ev] ++ begun h := begun_append [ev] h
    have hOwn : ∀ w, starts (own w (ev :: h)) = starts (own w [ev]) ++ starts (own w h) :=
      fun w => by rw [← starts_append, ← own_append, List.singleton_append]
    simp only [hBegun, hOwn, List.length_append, Finset.sum_add_distrib, ih]
    congr 1
    cases ev with
    | worker w e =>
      rw [Finset.sum_eq_single w]
      · simp [begun, own, Event.of, Event.payload]
      · intro v _ hNe
        simp [own, Event.of, Ne.symm hNe, starts]
      · simp
    | _ => exact (Finset.sum_eq_zero fun w _ => rfl).symm

namespace ParameterizedPool

variable {B : Nat} {s s₁ s₂ : ParameterizedPool n τ}

/-- What a continuation adds, once the flag is set. -/
def Winding (B : Nat) (s₁ s : ParameterizedPool n τ) (new : List (Event n)) : Prop :=
  s.hist = s₁.hist ++ new ∧ s.done = true ∧
    ∀ w, Spent B (s₁.workers w) (s.workers w) (own w new)

/-- The bound over a continuation: every step is a move of each worker. -/
theorem spent_of_leads (h : (system n B τ).Reachable s₁) (hDone : s₁.done = true)
    (hLeads : (system n B τ).Leads s₁ s₂) : ∃ new, Winding B s₁ s₂ new := by
  refine System.Leads.induction (P := fun s => ∃ new, Winding B s₁ s new) ?_ ?_ hLeads
  · exact ⟨[], (List.append_nil _).symm, hDone, fun w => .refl B _⟩
  rintro t a u hPrefix ⟨new, hHist, hSet, hSpent⟩ hStep
  have hReach := h.leads hPrefix
  have hCases := (step_cases hStep).2
  obtain ⟨more, hMore⟩ := hCases.grows
  refine ⟨new ++ more, by rw [hMore, hHist, List.append_assoc], hCases.done_mono hSet, fun w => ?_⟩
  obtain ⟨evs, hOwn, hMove⟩ := hCases.move (fresh_of_reachable hReach) w
  -- what the move records is what the history grew by
  have hEvs : evs = own w more := by
    rw [hMore, own_append] at hOwn
    exact (List.append_cancel_left hOwn).symm
  rw [own_append, ← hEvs]
  exact (hSpent w).trans (hMove.spent hSet (worker_ok hReach w).shape)

/-- Everything a worker took is finished, being called, or still to be
called. -/
theorem takes_split (h : (system n B τ).Reachable s) (w : Fin n) :
    takes (own w s.hist) = finishes (own w s.hist) ++ (s.workers w).running.map Elem.id ++
      (s.workers w).pending.map Elem.id := by
  rw [(worker_ok h w).traced.takes_eq, (worker_ok h w).traced.starts_eq]

/-- A worker that has left `worker()` has finished everything it took. -/
theorem takes_of_exited (h : (system n B τ).Reachable s) {w : Fin n}
    (hPc : (s.workers w).pc = .exited) : takes (own w s.hist) = finishes (own w s.hist) := by
  have hNil : (s.workers w).runnable = [] := by
    simpa only [Worker.Shape, hPc] using (worker_ok h w).shape
  rw [takes_split h w, Worker.running_of_nil hNil, Worker.pending_of_nil hNil]
  simp

/-- With every worker out, the accepted tasks are the finished ones and the
queued ones. -/
theorem accepted_of_exited (h : (system n B τ).Reachable s)
    (hExited : ∀ w, (s.workers w).pc = .exited) (hLife : s.life.tasksAlive = true) (t : Nat) :
    (t < s.accepted.length ↔ Finished s.hist t ∨ t ∈ s.tasks.map Elem.id) ∧
      ¬ (Finished s.hist t ∧ t ∈ s.tasks.map Elem.id) := by
  have hCons := conserved h
  have hTaken : Finished s.hist t ↔ t ∈ taken s.hist := by
    rw [finished_iff, mem_taken]
    exact exists_congr fun w => by rw [takes_of_exited h (hExited w)]
  constructor
  · rw [hTaken, ← List.mem_range, ← hCons.perm.mem_iff, dropped_eq_nil h hLife]
    simp only [List.map_nil, List.append_nil, List.mem_append]
    exact or_comm
  · rintro ⟨hFinished, hQueued⟩
    exact hCons.not_taken hQueued (hTaken.mp hFinished)

/-- With every worker out, no continuation calls anything. -/
theorem begun_of_exited (h : (system n B τ).Reachable s)
    (hExited : ∀ w, (s.workers w).pc = .exited) (hLeads : (system n B τ).Leads s s₂) :
    ∀ w, (s₂.workers w).pc = .exited ∧ own w s₂.hist = own w s.hist := by
  refine System.Leads.induction
    (P := fun t => ∀ w, (t.workers w).pc = .exited ∧ own w t.hist = own w s.hist)
    (fun w => ⟨hExited w, rfl⟩) ?_ hLeads
  intro t a u hPrefix hOld hStep w
  obtain ⟨hSame, hOwn⟩ :=
    (step_cases hStep).2.exited (fresh_of_reachable (h.leads hPrefix)) (hOld w).1
  exact ⟨by rw [hSame]; exact (hOld w).1, hOwn.trans (hOld w).2⟩

end ParameterizedPool

/-- **Shutdown.** Let the flag be set in `s₁` and let `s₂` continue it, `new`
being what the history grew by. Each worker enters no further turn, returns
from at most one dequeue and begins at most `B` calls, so at most `n * B`
begin; what it took is finished, being called or still in its batch, and all
finished once it is out. If an `await()` by a client returned, every worker
is out, the accepted tasks are the finished and the queued ones, and no
continuation begins a call. -/
theorem shutdown {B : Nat} {L : Types} {s₁ s₂ : Process n L}
    (h : (Process.system n B L).Reachable s₁) (hDone : s₁.pool.done = true)
    (hLeads : (Process.system n B L).Leads s₁ s₂) :
    ∃ new, s₂.pool.hist = s₁.pool.hist ++ new ∧
      (∀ w, .enter ∉ own w new ∧ dequeues (own w new) ≤ 1 ∧
        (starts (own w new)).length ≤ B) ∧
      (begun new).length ≤ n * B ∧
      (∀ w, takes (own w s₂.pool.hist) = finishes (own w s₂.pool.hist) ++
          (s₂.pool.workers w).running.map Elem.id ++ (s₂.pool.workers w).pending.map Elem.id ∧
        ((s₂.pool.workers w).pc = .exited →
          takes (own w s₂.pool.hist) = finishes (own w s₂.pool.hist))) ∧
      (∀ k, .awaited (.client k) ∈ new →
        (∀ w, (s₂.pool.workers w).pc = .exited) ∧
          (s₂.pool.life.tasksAlive = true → ∀ t,
            (t < s₂.pool.accepted.length ↔
              Finished s₂.pool.hist t ∨ t ∈ s₂.pool.tasks.map Elem.id) ∧
            ¬ (Finished s₂.pool.hist t ∧ t ∈ s₂.pool.tasks.map Elem.id)) ∧
          ∀ s₃, (Process.system n B L).Leads s₂ s₃ →
            ∀ w, starts (own w s₃.pool.hist) = starts (own w s₂.pool.hist)) := by
  have hPool₁ := Process.pool_reachable h
  have hPool₂ := Process.pool_reachable (h.leads hLeads)
  obtain ⟨new, hHist, -, hSpent⟩ := ParameterizedPool.spent_of_leads hPool₁ hDone
    ((Process.simulation n B L).leads hLeads)
  -- every call of `new` is paid from the budget the worker had in `s₁`
  have hStarts : ∀ w, (starts (own w new)).length ≤ B := by
    intro w
    have hPaid := (hSpent w).starts
    have hTop := Worker.budget_le (ParameterizedPool.worker_ok hPool₁ w).shape
    exact le_trans (Nat.le_of_add_right_le hPaid) hTop
  refine ⟨new, hHist, fun w => ⟨(hSpent w).enter, ?_, hStarts w⟩, ?_, fun w =>
    ⟨ParameterizedPool.takes_split hPool₂ w, ParameterizedPool.takes_of_exited hPool₂⟩, ?_⟩
  · have hPaid := (hSpent w).dequeues
    exact le_trans (Nat.le_of_add_right_le hPaid) (Worker.calls_le _)
  · rw [length_begun]
    calc ∑ w, (starts (own w new)).length ≤ ∑ _w : Fin n, B :=
          Finset.sum_le_sum fun w _ => hStarts w
      _ = n * B := by simp
  · intro k hAwaited
    have hMem : .awaited (.client k) ∈ s₂.pool.hist :=
      hHist ▸ List.mem_append_right _ hAwaited
    have hExited := ParameterizedPool.awaited_exited hPool₂ hMem
    refine ⟨hExited, fun hLife => ParameterizedPool.accepted_of_exited hPool₂ hExited hLife, ?_⟩
    intro s₃ hLater w
    have hQuiet := ParameterizedPool.begun_of_exited hPool₂ hExited
      ((Process.simulation n B L).leads hLater) w
    exact congrArg starts hQuiet.2

/-- `stop` lands while worker 0 is inside a dequeue, with one task taken and
two still queued. -/
def stopped : Process 2 Process.natTypes :=
  ((Process.system 2 2 Process.natTypes).run (Process.system 2 2 Process.natTypes).init
    (Process.construct 2 ++
      [.scheduleBulk (.client 0) none (List.replicate 3 (some (Process.adder 0))) faultless,
        .control (.check first), .control (.dequeueElem first 0),
        .control (.stop (.client 0))])).get rfl

/-- Worker 0 takes and calls two tasks, worker 1 leaves at once, and a client
joins both. -/
def windingDown : List (Process.Op 2 Process.natTypes) :=
  [.control (.dequeueElem first 0), .control (.dequeueReturn first), .control (.loop first),
    .invoke first, .control (.loop first), .invoke first, .control (.loop first),
    .control (.check first), .control (.check second), .control (.await (.client 1)),
    .control .join, .control .join, .control .join]

theorem shutdown_stopped :
    ∃ new, (((Process.system 2 2 Process.natTypes).run stopped windingDown).get rfl).pool.hist =
        stopped.pool.hist ++ new ∧ (begun new).length ≤ 2 * 2 := by
  have hReach : (Process.system 2 2 Process.natTypes).Reachable stopped :=
    System.Reachable.get _ rfl
  obtain ⟨new, hHist, -, hTotal, -⟩ :=
    shutdown hReach rfl (System.Leads.get stopped windingDown rfl)
  exact ⟨new, hHist, hTotal⟩

end ThreadPool.Model
