import ThreadPool.Lib.Trace
import ThreadPool.Model.Process

/-!
# ThreadPool — definitions

The vocabulary of the results, over the executable types of
`Model/Impl.lean` and `Model/Process.lean`:

* what the history says about a worker (`own`, `takes`, `starts`,
  `finishes`) and about a task (`taken`, `Finished`);
* what a worker holds: the batch in its array, how many slots it has begun
  to call (`cursor`), the slots still to call (`pending`) and the one being
  called (`running`);
* where a task is (`Place`, `Located`, `At`).
-/

namespace ThreadPool.Model

open ThreadPool.Lib

variable {n : Nat} {τ : Type}

-- ---------------------------------------------------------------------------
-- Reading the history
-- ---------------------------------------------------------------------------

/-- What an event says about worker `w`. -/
def Event.of (w : Fin n) : Event n → Option WorkerEvent
  | .worker w' e => if w' = w then some e else none
  | _ => none

/-- The history of worker `w`. -/
def own (w : Fin n) (h : List (Event n)) : List WorkerEvent := h.filterMap (Event.of w)

def WorkerEvent.taken : WorkerEvent → Option Nat
  | .take id => some id
  | _ => none

def WorkerEvent.started : WorkerEvent → Option Nat
  | .start id => some id
  | _ => none

def WorkerEvent.finished : WorkerEvent → Option Nat
  | .finish id => some id
  | _ => none

/-- The tasks taken from the queue, in order. -/
def takes (evs : List WorkerEvent) : List Nat := evs.filterMap WorkerEvent.taken

/-- The tasks whose invocation begins, in order. -/
def starts (evs : List WorkerEvent) : List Nat := evs.filterMap WorkerEvent.started

/-- The tasks whose invocation ends, in order. -/
def finishes (evs : List WorkerEvent) : List Nat := evs.filterMap WorkerEvent.finished

/-- The events of the current turn of the `while` loop. -/
def iteration (evs : List WorkerEvent) : List WorkerEvent := since (· = .enter) evs

/-- The event of a worker, whichever worker it is. -/
def Event.payload : Event n → Option WorkerEvent
  | .worker _ e => some e
  | _ => none

/-- The tasks taken from the queue by all workers, in order. -/
def taken (h : List (Event n)) : List Nat := takes (h.filterMap Event.payload)

/-- The tasks whose invocation begins, on any worker, in order. -/
def begun (h : List (Event n)) : List Nat := starts (h.filterMap Event.payload)

/-- Some worker has finished task `t`. -/
def Finished (h : List (Event n)) (t : Nat) : Prop := ∃ w, .worker w (.finish t) ∈ h

-- ---------------------------------------------------------------------------
-- What a worker holds
-- ---------------------------------------------------------------------------

namespace Worker

/-- The filled slots, in slot order. -/
def batch (x : Worker n τ) : List (Elem n τ) := x.runnable.filterMap id

/-- How many slots of the array `worker()` has begun to call. -/
def cursor (x : Worker n τ) : Nat :=
  match x.pc with
  | .looping i _ => i
  | .invoking i _ => i + 1
  | _ => 0

/-- The batch from the next slot on. -/
def pending (x : Worker n τ) : List (Elem n τ) := x.batch.drop x.cursor

/-- The element being called, if any. -/
def running (x : Worker n τ) : List (Elem n τ) :=
  match x.pc with
  | .invoking i _ => (x.batch.drop i).take 1
  | _ => []

end Worker

/-- The array is filled from the front with the elements `es`. -/
structure Filled (B : Nat) (r : List (Option (Elem n τ))) (es : List (Elem n τ)) : Prop where
  eq : r = es.map some ++ List.replicate (B - es.length) none
  le : es.length ≤ B

/-- The array and the counters of `worker()` fit together. -/
def Worker.Shape (B : Nat) (x : Worker n τ) : Prop :=
  match x.pc with
  | .waiting c => Filled B x.runnable x.batch ∧ x.batch.length = c
  | .looping i k => Filled B x.runnable x.batch ∧ x.batch.length = k ∧ i ≤ k
  | .invoking i k => Filled B x.runnable x.batch ∧ x.batch.length = k ∧ i < k
  | _ => x.runnable = []

/-- A worker starts what it took, in order, and finishes what it started
before it starts the next. -/
structure Worker.Traced (x : Worker n τ) (evs : List WorkerEvent) : Prop where
  takes_eq : takes evs = starts evs ++ x.pending.map Elem.id
  starts_eq : starts evs = finishes evs ++ x.running.map Elem.id

/-- Inside the loop body the array holds what this turn took, and the slots
called are the first `cursor` of them; outside nothing is left over. -/
def Worker.InTurn (x : Worker n τ) (evs : List WorkerEvent) : Prop :=
  match x.pc with
  | .unstarted | .check | .exited => starts (iteration evs) = takes (iteration evs)
  | _ =>
    takes (iteration evs) = x.batch.map Elem.id ∧
      starts (iteration evs) = (x.batch.take x.cursor).map Elem.id

-- ---------------------------------------------------------------------------
-- Where a task is
-- ---------------------------------------------------------------------------

/-- A place for a task: a position of the queue, a slot of the current array
of a worker that is still to be called, the invocation a worker is inside
of, or the past. -/
inductive Place (n : Nat)
  | queue (i : Nat)
  | slot (w : Fin n) (i : Nat)
  | invoked (w : Fin n)
  | finished
  deriving DecidableEq

/-- Task `t` is at a place. -/
def Located (s : ParameterizedPool n τ) (t : Nat) : Place n → Prop
  | .queue i => ∃ e, s.tasks[i]? = some e ∧ e.id = t
  | .slot w i => ∃ e, (s.workers w).runnable[i]? = some (some e) ∧ e.id = t ∧
      (s.workers w).cursor ≤ i
  | .invoked w => ∃ e, s.current w = some e ∧ e.id = t
  | .finished => Finished s.hist t

/-- The element `e`, with its value, is at a place. What is finished is known
by its name alone. -/
def At (s : ParameterizedPool n τ) (e : Elem n τ) : Place n → Prop
  | .queue i => s.tasks[i]? = some e
  | .slot w i => (s.workers w).runnable[i]? = some (some e) ∧ (s.workers w).cursor ≤ i
  | .invoked w => s.current w = some e
  | .finished => Finished s.hist e.id

end ThreadPool.Model
