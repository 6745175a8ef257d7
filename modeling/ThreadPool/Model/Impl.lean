import Mathlib.Data.Fintype.Basic
import Mathlib.Logic.Function.Basic
import ThreadPool.Lib.System

/-!
# ThreadPool — executable model of `parameterized_pool_t`

One pool object, the `worker()` frames of its threads and the calls made on
it, as a transition system. A step is the least piece of the code another
thread can observe: a load or store of `done_`, one element moved out of
`tasks_`, the begin or the end of one invocation, one `join`.

`τ` is the element type of the queue (`consumer_t` in the code; the loop
never looks inside). Modelled of the vendored queue is what the pool relies
on:

* a successful `enqueue` or `enqueue_bulk` appends its elements in one step;
* `wait_dequeue_bulk_timed` moves queued elements one at a time to the next
  slots of the buffer, at most `max` of them and in any choice of elements,
  and may return after any of them (after none: the timeout). Other threads
  may step in between, as they may between the inner dequeues of the code.

Three fields are history: `accepted`, `dropped` and `hist` are written and
never read by a step, apart from `accepted.length`, which names the next
accepted element.
-/

namespace ThreadPool.Model

open ThreadPool.Lib

/-- A thread of the process: one of the clients, or the thread of a worker. -/
inductive Thread (n : Nat)
  | client (k : Nat)
  | worker (w : Fin n)
  deriving DecidableEq

/-- The sub-queue an element is appended to: the one of an explicit producer
token, or the implicit one of the calling thread. -/
inductive Producer (n : Nat)
  | token (k : Nat)
  | thread (th : Thread n)
  deriving DecidableEq

/-- The producer of a call: its token, or the calling thread without one. -/
def Thread.producer {n : Nat} (th : Thread n) : Option Nat → Producer n
  | some k => .token k
  | none => .thread th

/-- A queued element, named by the rank in which it was accepted. -/
structure Elem (n : Nat) (τ : Type) where
  id : Nat
  producer : Producer n
  val : τ

/-- Where a thread stands in `worker()`. -/
inductive Pc
  /-- the thread does not exist yet -/
  | unstarted
  /-- at `while (!done_)` -/
  | check
  /-- inside `wait_dequeue_bulk_timed`, with `count` elements written -/
  | waiting (count : Nat)
  /-- at the test `i < available` -/
  | looping (i available : Nat)
  /-- inside `runnable[i]()` -/
  | invoking (i available : Nat)
  | exited
  deriving DecidableEq

/-- A `worker()` frame. `runnable` is `[]` while the array is out of scope;
a slot is `none` while it holds the empty function it is initialised with. -/
structure Worker (n : Nat) (τ : Type) where
  pc : Pc
  runnable : List (Option (Elem n τ))

/-- An entry of `threads_`. -/
inductive ThreadState
  | absent
  | joinable
  | joined
  deriving DecidableEq

/-- Which of the two ways leads to the destruction of the members. -/
inductive Cause
  | ctor
  | dtor
  deriving DecidableEq

/-- The data members, in the order they are destroyed in. -/
inductive Member
  | done
  | tasks
  | threads
  deriving DecidableEq

inductive Life
  /-- in the constructor, with `k` threads created -/
  | constructing (k : Nat)
  | alive
  /-- in the `try` block of the destructor -/
  | destructing
  /-- member `m` is destroyed next -/
  | teardown (c : Cause) (m : Member)
  | gone (c : Cause)
  deriving DecidableEq

/-- `done_` can be read. -/
def Life.doneAlive : Life → Bool
  | teardown _ .done => true
  | teardown _ _ => false
  | gone _ => false
  | _ => true

/-- `tasks_` can be used. -/
def Life.tasksAlive : Life → Bool
  | teardown _ .threads => false
  | gone _ => false
  | _ => true

/-- The ways the process ends before `main` does: calls of `std::terminate`,
and undefined behaviour (`outOfBounds`, `dangling`). -/
inductive Abort
  /-- an invoked slot was not filled by the dequeue (`bad_function_call`) -/
  | unfilledSlot
  /-- `runnable[i]` is past the array -/
  | outOfBounds
  /-- the exception of a task leaves `worker()` -/
  | escaped
  /-- an exception leaves a `noexcept` member function -/
  | noexceptThrow
  /-- a joinable `std::thread` is destroyed -/
  | joinableDestroyed
  /-- a worker uses a member after its destruction -/
  | dangling
  deriving DecidableEq

/-- What a worker does, as the history records it. -/
inductive WorkerEvent
  | enter
  | take (id : Nat)
  | dequeued (count : Nat)
  | start (id : Nat)
  | finish (id : Nat)
  deriving DecidableEq

inductive Event (n : Nat)
  | worker (w : Fin n) (e : WorkerEvent)
  /-- `await()` is called, by the destructor included -/
  | await (th : Thread n)
  /-- `await()` returns normally -/
  | awaited (th : Thread n)
  /-- `await()` throws `std::system_error` -/
  | awaitThrew (th : Thread n)
  deriving DecidableEq

/-- `parameterized_pool_t` with `n` threads: its members, the frames of its
workers, the `await()` in progress (caller and index of the loop), and the
history. Two `await()` calls never overlap: joining one `std::thread` from
two threads at once is a data race. -/
structure ParameterizedPool (n : Nat) (τ : Type) where
  threads : Fin n → ThreadState
  tasks : List (Elem n τ)
  done : Bool
  workers : Fin n → Worker n τ
  awaiting : Option (Thread n × Nat)
  life : Life
  abort : Option Abort
  accepted : List (Elem n τ)
  dropped : List (Elem n τ)
  hist : List (Event n)

/-- The steps whose effect does not depend on what a queued element is. -/
inductive Control (n : Nat)
  | spawn
  | spawnThrows
  | growThrows
  | check (w : Fin n)
  | dequeueElem (w : Fin n) (i : Nat)
  | dequeueReturn (w : Fin n)
  | loop (w : Fin n)
  | stop (th : Thread n)
  | await (th : Thread n)
  | join
  | destroy (k : Nat)
  | teardown

/-- All steps: the scheduling functions and the end of an invocation are
refined by the process model, which knows the callables. -/
inductive Action (n : Nat) (τ : Type)
  | control (c : Control n)
  | enqueue (th : Thread n) (token : Option Nat) (vs : List τ)
  | noexceptThrow (th : Thread n)
  | taskReturn (w : Fin n)
  | taskThrow (w : Fin n)

namespace ParameterizedPool

variable {n : Nat} {τ : Type}

/-- The members are initialised, no thread is created yet. -/
def init : ParameterizedPool n τ where
  threads := fun _ => .absent
  tasks := []
  done := false
  workers := fun _ => ⟨.unstarted, []⟩
  awaiting := none
  life := .constructing 0
  abort := none
  accepted := []
  dropped := []
  hist := []

def kill (s : ParameterizedPool n τ) (a : Abort) : ParameterizedPool n τ :=
  { s with abort := some a }

/-- Worker `w` moves to frame `x`; `evs` is what the history records. -/
def setWorker (s : ParameterizedPool n τ) (w : Fin n) (x : Worker n τ)
    (evs : List WorkerEvent) : ParameterizedPool n τ :=
  { s with
    workers := Function.update s.workers w x
    hist := s.hist ++ evs.map (.worker w) }

/-- Thread `th` can call a member function: a client while the object is
alive, a worker from inside a task, neither from inside its own `await()`.
A task that calls into a pool whose members are gone is left out. -/
def mayCall (s : ParameterizedPool n τ) (th : Thread n) : Bool :=
  !(s.awaiting.any fun a => a.1 = th) &&
    match th with
    | .client _ => s.life = .alive
    | .worker w =>
      s.life.doneAlive && match (s.workers w).pc with
        | .invoking _ _ => true
        | _ => false

-- ---------------------------------------------------------------------------
-- The constructor
-- ---------------------------------------------------------------------------

/-- One turn of `while (concurrency--)`; the last test ends the constructor. -/
def spawn (s : ParameterizedPool n τ) : Option (ParameterizedPool n τ) :=
  match s.life with
  | .constructing k =>
    if h : k < n then
      some { s with
        threads := Function.update s.threads ⟨k, h⟩ .joinable
        workers := Function.update s.workers ⟨k, h⟩ ⟨.check, []⟩
        life := .constructing (k + 1) }
    else some { s with life := .alive }
  | _ => none

/-- The `std::thread` constructor throws: the members are destroyed. -/
def spawnThrows (s : ParameterizedPool n τ) : Option (ParameterizedPool n τ) :=
  match s.life with
  | .constructing k => if k < n then some { s with life := .teardown .ctor .done } else none
  | _ => none

/-- `push_back` throws: the temporary `std::thread` is destroyed joinable. -/
def growThrows (s : ParameterizedPool n τ) : Option (ParameterizedPool n τ) :=
  match s.life with
  | .constructing k => if k < n then some (s.kill .joinableDestroyed) else none
  | _ => none

-- ---------------------------------------------------------------------------
-- The queue
-- ---------------------------------------------------------------------------

/-- Elements for `vs`, named from `base` on. -/
def number (base : Nat) (p : Producer n) (vs : List τ) : List (Elem n τ) :=
  (vs.zipIdx base).map fun v => ⟨v.2, p, v.1⟩

/-- A successful `enqueue` or `enqueue_bulk`. -/
def enqueue (s : ParameterizedPool n τ) (p : Producer n) (vs : List τ) :
    ParameterizedPool n τ :=
  { s with
    tasks := s.tasks ++ number s.accepted.length p vs
    accepted := s.accepted ++ number s.accepted.length p vs }

-- ---------------------------------------------------------------------------
-- `worker()`
-- ---------------------------------------------------------------------------

/-- `while (!done_)`, and on entering the body `runnable[BULK_MAX_ITEMS] = {}`. -/
def check (B : Nat) (s : ParameterizedPool n τ) (w : Fin n) :
    Option (ParameterizedPool n τ) :=
  match (s.workers w).pc with
  | .check =>
    if s.life.doneAlive then
      if s.done then some (s.setWorker w ⟨.exited, (s.workers w).runnable⟩ [])
      else some (s.setWorker w ⟨.waiting 0, List.replicate B none⟩ [.enter])
    else some (s.kill .dangling)
  | _ => none

/-- `wait_dequeue_bulk_timed` moves the queued element at position `i` to the
next slot. -/
def dequeueElem (B : Nat) (s : ParameterizedPool n τ) (w : Fin n) (i : Nat) :
    Option (ParameterizedPool n τ) :=
  match (s.workers w).pc with
  | .waiting count =>
    if s.life.tasksAlive then
      match s.tasks[i]? with
      | some e =>
        if count < B then
          some { s.setWorker w ⟨.waiting (count + 1), (s.workers w).runnable.set count (some e)⟩
              [.take e.id] with
            tasks := s.tasks.eraseIdx i }
        else none
      | none => none
    else some (s.kill .dangling)
  | _ => none

/-- `wait_dequeue_bulk_timed` returns `available`; the loop starts at `i = 0`. -/
def dequeueReturn (s : ParameterizedPool n τ) (w : Fin n) :
    Option (ParameterizedPool n τ) :=
  match (s.workers w).pc with
  | .waiting count =>
    if s.life.tasksAlive then
      some (s.setWorker w ⟨.looping 0 count, (s.workers w).runnable⟩ [.dequeued count])
    else some (s.kill .dangling)
  | _ => none

/-- The test `i < available`: call `runnable[i]`, or end the iteration, which
destroys the array. -/
def loop (s : ParameterizedPool n τ) (w : Fin n) : Option (ParameterizedPool n τ) :=
  match (s.workers w).pc with
  | .looping i available =>
    if i < available then
      match (s.workers w).runnable[i]? with
      | some (some e) =>
        some (s.setWorker w ⟨.invoking i available, (s.workers w).runnable⟩ [.start e.id])
      | some none => some (s.kill .unfilledSlot)
      | none => some (s.kill .outOfBounds)
    else some (s.setWorker w ⟨.check, []⟩ [])
  | _ => none

/-- The element whose invocation worker `w` is inside of. -/
def current (s : ParameterizedPool n τ) (w : Fin n) : Option (Elem n τ) :=
  match (s.workers w).pc with
  | .invoking i _ => ((s.workers w).runnable[i]?).join
  | _ => none

/-- `runnable[i]()` returns; `++i`. -/
def taskReturn (s : ParameterizedPool n τ) (w : Fin n) : Option (ParameterizedPool n τ) :=
  match (s.workers w).pc, s.current w with
  | .invoking i available, some e =>
    if s.awaiting.any (fun a => a.1 = .worker w) then none
    else some
      (s.setWorker w ⟨.looping (i + 1) available, (s.workers w).runnable⟩ [.finish e.id])
  | _, _ => none

/-- `runnable[i]()` throws: nothing in `worker()` catches it. -/
def taskThrow (s : ParameterizedPool n τ) (w : Fin n) : Option (ParameterizedPool n τ) :=
  match s.current w with
  | some _ =>
    if s.awaiting.any (fun a => a.1 = .worker w) then none else some (s.kill .escaped)
  | none => none

-- ---------------------------------------------------------------------------
-- `stop`, `await` and the destructor
-- ---------------------------------------------------------------------------

def stop (s : ParameterizedPool n τ) (th : Thread n) : Option (ParameterizedPool n τ) :=
  if s.mayCall th then some { s with done := true } else none

def await (s : ParameterizedPool n τ) (th : Thread n) : Option (ParameterizedPool n τ) :=
  if s.mayCall th && s.awaiting.isNone then
    some { s with awaiting := some (th, 0), hist := s.hist ++ [.await th] }
  else none

/-- `await()` ends, by returning or by throwing. In the destructor both lead
out of the `try` block: `catch (std::system_error&) {}`. -/
def leaveAwait (s : ParameterizedPool n τ) (e : Event n) : ParameterizedPool n τ :=
  { s with
    awaiting := none
    life := if s.life = .destructing then .teardown .dtor .done else s.life
    hist := s.hist ++ [e] }

/-- One turn of `for (std::thread& t : threads_) t.join()`: `join` throws
`invalid_argument` on a thread that is not joinable and
`resource_deadlock_would_occur` on the calling thread, and else waits for
the thread to exit. -/
def join (s : ParameterizedPool n τ) : Option (ParameterizedPool n τ) :=
  match s.awaiting with
  | some (th, i) =>
    if h : i < n then
      if s.threads ⟨i, h⟩ = .joinable then
        if th = .worker ⟨i, h⟩ then some (s.leaveAwait (.awaitThrew th))
        else if (s.workers ⟨i, h⟩).pc = .exited then
          some { s with
            threads := Function.update s.threads ⟨i, h⟩ .joined
            awaiting := some (th, i + 1) }
        else none
      else some (s.leaveAwait (.awaitThrew th))
    else some (s.leaveAwait (.awaited th))
  | none => none

/-- The destructor begins, on client `k`: `stop().await()`. -/
def destroy (s : ParameterizedPool n τ) (k : Nat) : Option (ParameterizedPool n τ) :=
  if s.life = .alive ∧ s.awaiting = none then
    some { s with
      done := true
      life := .destructing
      awaiting := some (.client k, 0)
      hist := s.hist ++ [.await (.client k)] }
  else none

/-- The members are destroyed one by one, the elements of the queue with it. -/
def teardown (s : ParameterizedPool n τ) : Option (ParameterizedPool n τ) :=
  match s.life with
  | .teardown c .done => some { s with life := .teardown c .tasks }
  | .teardown c .tasks =>
    some { s with tasks := [], dropped := s.dropped ++ s.tasks, life := .teardown c .threads }
  | .teardown c .threads =>
    if ∃ w, s.threads w = .joinable then some (s.kill .joinableDestroyed)
    else some { s with life := .gone c }
  | _ => none

-- ---------------------------------------------------------------------------
-- The transition system
-- ---------------------------------------------------------------------------

def control (B : Nat) (s : ParameterizedPool n τ) : Control n → Option (ParameterizedPool n τ)
  | .spawn => s.spawn
  | .spawnThrows => s.spawnThrows
  | .growThrows => s.growThrows
  | .check w => s.check B w
  | .dequeueElem w i => s.dequeueElem B w i
  | .dequeueReturn w => s.dequeueReturn w
  | .loop w => s.loop w
  | .stop th => s.stop th
  | .await th => s.await th
  | .join => s.join
  | .destroy k => s.destroy k
  | .teardown => s.teardown

def step (B : Nat) (s : ParameterizedPool n τ) (a : Action n τ) :
    Option (ParameterizedPool n τ) :=
  if s.abort.isSome then none
  else match a with
    | .control c => s.control B c
    | .enqueue th token vs =>
      if s.mayCall th then some (s.enqueue (th.producer token) vs) else none
    | .noexceptThrow th => if s.mayCall th then some (s.kill .noexceptThrow) else none
    | .taskReturn w => s.taskReturn w
    | .taskThrow w => s.taskThrow w

/-- A guard on the control steps alone. -/
def guard (g : ParameterizedPool n τ → Control n → Bool) :
    ParameterizedPool n τ → Action n τ → Bool
  | s, .control c => g s c
  | _, _ => true

/-- The pool of `n` threads with `BULK_MAX_ITEMS = B`. -/
def system (n B : Nat) (τ : Type) : System (ParameterizedPool n τ) (Action n τ) where
  init := init
  step := step B

end ParameterizedPool

end ThreadPool.Model
