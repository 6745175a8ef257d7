import Mathlib.Data.List.Basic
import ThreadPool.Model.Impl

/-!
# ThreadPool — executable model of the scheduling functions

The process around one pool: what a queued `consumer_t` is, the packaged
tasks that futures read, and the three scheduling functions with every point
at which they can fail.

* A callable object is its code and its captured state. Copying it (through
  `std::bind`, `std::function` or the queue) copies the state; a
  `std::packaged_task` is shared through a `std::shared_ptr`, so it lives in
  `heap` and is named by its index, which also names the call of `schedule`
  and its future.
* The outcome of a callable is a function of its state and arguments. What a
  task does to the rest of the process while it runs (calls into the pool
  included) are the steps other labels stand for, between the begin and the
  end of its invocation.
* `Faults` says what goes wrong in one call: which points throw what, and
  whether the queue refuses. The scheduling functions run in `Eval`, where a
  throw keeps the state reached so far.
-/

namespace ThreadPool.Model

open ThreadPool.Lib

/-- The types a program instantiates the member templates at: captured
states of callables, arguments, results and exceptions. -/
structure Types where
  State : Type
  Arg : Type
  Ret : Type
  Exc : Type

inductive Exn (L : Types)
  | user (e : L.Exc)
  | badAlloc
  | badFunctionCall
  | lengthError
  | futureError

/-- How a call of a callable ends. -/
inductive Outcome (L : Types)
  | value (r : L.Ret)
  | exception (e : Exn L)

/-- A callable object: its `operator()` and its captured state. -/
structure Callable (L : Types) where
  code : L.State → List L.Arg → Outcome L × L.State
  state : L.State

/-- The outcome of calling `f`. -/
def Callable.outcome {L : Types} (f : Callable L) (args : List L.Arg) : Outcome L :=
  (f.code f.state args).1

/-- The result of `std::bind(f, args...)`, which owns a copy of `f`. -/
structure Bound (L : Types) where
  callable : Callable L
  args : List L.Arg

/-- Call the bound object: its own copy of the callable changes state. -/
def Bound.invoke {L : Types} (b : Bound L) : Outcome L × Bound L :=
  (b.callable.outcome b.args,
    { b with callable := { b.callable with state := (b.callable.code b.callable.state b.args).2 } })

/-- The shared state of a promise and its future. -/
inductive Promise (L : Types)
  | pending
  | ready (o : Outcome L)
  /-- the packaged task was destroyed without being called -/
  | broken

def Promise.isPending {L : Types} : Promise L → Bool
  | .pending => true
  | _ => false

/-- A `std::packaged_task` behind its `std::shared_ptr`, with the use count.
`task` (the name of the queue element) and `call` (what `schedule` was
called with) are history. -/
structure PackagedTask (L : Types) where
  bound : Bound L
  shared : Promise L
  refs : Nat
  task : Nat
  call : Bound L

/-- One owner is gone; the last one destroys the packaged task. -/
def PackagedTask.release {L : Types} (t : PackagedTask L) : PackagedTask L :=
  { t with
    refs := t.refs - 1
    shared := if t.refs = 1 ∧ t.shared.isPending then .broken else t.shared }

/-- What a `consumer_t` (`std::function<void()>`) holds. -/
inductive Consumer (L : Types)
  | empty
  /-- the lambda `[task] () { (*task)(); }` of `schedule` -/
  | packaged (task : Nat)
  | function (b : Bound L)

/-- A `consumer_t` made by a client, empty or not. -/
def Consumer.ofFunction {L : Types} : Option (Callable L) → Consumer L
  | none => .empty
  | some f => .function ⟨f, []⟩

/-- The packaged tasks of the process. -/
abbrev Heap (L : Types) := List (PackagedTask L)

/-- Call a `consumer_t`: the exception that leaves it, and the heap after. -/
def Consumer.call {L : Types} (c : Consumer L) (heap : Heap L) : Option (Exn L) × Heap L :=
  match c with
  | .empty => (some .badFunctionCall, heap)
  | .function b =>
    match b.invoke.1 with
    | .value _ => (none, heap)
    | .exception e => (some e, heap)
  | .packaged j =>
    match heap[j]? with
    | some t =>
      match t.shared with
      | .pending =>
        -- the outcome is stored, a throwing callable throws nothing here
        (none, heap.set j { t with bound := t.bound.invoke.2, shared := .ready t.bound.invoke.1 })
      | _ => (some .futureError, heap)
    | none => (some .futureError, heap)

/-- Destroy a `consumer_t`. -/
def Consumer.destroy {L : Types} (heap : Heap L) : Consumer L → Heap L
  | .packaged j => heap.modify j PackagedTask.release
  | _ => heap

/-- A process with one pool. -/
structure Process (n : Nat) (L : Types) where
  pool : ParameterizedPool n (Consumer L)
  heap : Heap L

-- ---------------------------------------------------------------------------
-- Faults
-- ---------------------------------------------------------------------------

/-- The points of the scheduling functions that can throw. -/
inductive Point
  /-- `std::bind` copies or moves the callable -/
  | bindCallable
  /-- `std::bind` copies or moves argument `k` -/
  | bindArg (k : Nat)
  /-- `std::make_shared<std::packaged_task<...>>` -/
  | makeShared
  /-- the construction of `std::function<return_type()> bound` -/
  | function
  /-- the conversion to `consumer_t` -/
  | consumer
  /-- the queue constructs its element `k` of the call -/
  | element (k : Nat)
  /-- the construction of the `std::length_error` -/
  | lengthError

/-- What goes wrong in one call. -/
structure Faults (L : Types) where
  throws : Point → Option (Exn L)
  refuses : Bool

/-- Nothing goes wrong. -/
def faultless {L : Types} : Faults L := ⟨fun _ => none, false⟩

/-- Code that may throw, on the state of the process. -/
abbrev Eval (n : Nat) (L : Types) := EStateM (Exn L) (Process n L)

variable {n : Nat} {L : Types}

def Faults.reach (φ : Faults L) (pt : Point) : Eval n L Unit :=
  match φ.throws pt with
  | some e => throw e
  | none => pure ()

/-- Copy the elements of a list one by one, the first as number `k`. -/
def Faults.copyEach {β : Type} (φ : Faults L) (pt : Nat → Point) : Nat → List β → Eval n L Unit
  | _, [] => pure ()
  | k, _ :: rest => do
    φ.reach (pt k)
    φ.copyEach pt (k + 1) rest

/-- `std::bind(std::forward<F>(f), std::forward<Args>(args)...)`. -/
def Faults.bind (φ : Faults L) (f : Callable L) (args : List L.Arg) : Eval n L (Bound L) := do
  φ.reach .bindCallable
  φ.copyEach .bindArg 0 args
  return ⟨f, args⟩

/-- `tasks_.enqueue` and `tasks_.enqueue_bulk`: memory is allocated first,
then the elements are constructed, then they become visible. -/
def Faults.enqueue (φ : Faults L) (p : Producer n) (cs : List (Consumer L)) : Eval n L Bool := do
  if φ.refuses then
    return false
  else
    φ.copyEach .element 0 cs
    modify fun s => { s with pool := s.pool.enqueue p cs }
    return true

-- ---------------------------------------------------------------------------
-- The scheduling functions
-- ---------------------------------------------------------------------------

/-- How a call of a member function ends. -/
inductive CallResult (L : Types) (α : Type)
  | returned (a : α)
  | threw (e : Exn L)
  | terminated

/-- Run a function body. -/
def call {α : Type} (body : Eval n L α) (s : Process n L) : CallResult L α × Process n L :=
  match body s with
  | .ok a s' => (.returned a, s')
  | .error e s' => (.threw e, s')

/-- Run the body of a `noexcept` function: a throw is `std::terminate`. -/
def noexcept {α : Type} (body : Eval n L α) (s : Process n L) :
    CallResult L α × Process n L :=
  match body s with
  | .ok a s' => (.returned a, s')
  | .error _ s' => (.terminated, { s' with pool := s'.pool.kill .noexceptThrow })

namespace Process

/-- `schedule`, with and without a token. The result names the future. The
packaged task enters the heap with its element; on return the element is its
only owner. -/
def schedule (φ : Faults L) (th : Thread n) (token : Option Nat) (f : Callable L)
    (args : List L.Arg) : Process n L → CallResult L Nat × Process n L :=
  call do
    let bound ← φ.bind f args
    φ.reach .makeShared
    φ.reach .consumer
    let s ← get
    let task := s.heap.length
    if ← φ.enqueue (th.producer token) [.packaged task] then
      modify fun s' => { s' with
        heap := s'.heap ++ [⟨bound, .pending, 1, s.pool.accepted.length, bound⟩] }
      return task
    else
      φ.reach .lengthError
      throw .lengthError

/-- `schedule_and_forget`, with and without a token. -/
def scheduleAndForget (φ : Faults L) (th : Thread n) (token : Option Nat) (f : Callable L)
    (args : List L.Arg) : Process n L → CallResult L Bool × Process n L :=
  noexcept do
    let bound ← φ.bind f args
    φ.reach .function
    φ.reach .consumer
    φ.enqueue (th.producer token) [.function bound]

/-- `schedule_bulk`, with and without a token; the size is the length of the
array. -/
def scheduleBulk (φ : Faults L) (th : Thread n) (token : Option Nat)
    (array : List (Option (Callable L))) : Process n L → CallResult L Bool × Process n L :=
  noexcept do
    φ.enqueue (th.producer token) (array.map Consumer.ofFunction)

-- ---------------------------------------------------------------------------
-- Steps
-- ---------------------------------------------------------------------------

/-- The invocation worker `w` is inside of runs to its end. -/
def invoke (s : Process n L) (w : Fin n) : Option (Process n L) :=
  match s.pool.current w with
  | some e =>
    match e.val.call s.heap with
    | (none, heap) => (s.pool.taskReturn w).map fun pool => ⟨pool, heap⟩
    | (some _, heap) => (s.pool.taskThrow w).map fun pool => ⟨pool, heap⟩
  | none => none

/-- The consumers in an array of slots. -/
def consumers (r : List (Option (Elem n (Consumer L)))) : List (Consumer L) :=
  r.filterMap fun slot => slot.map Elem.val

/-- The consumers a step destroys: the array at the end of an iteration, the
queue with the members. -/
def destroyed (s : ParameterizedPool n (Consumer L)) : Control n → List (Consumer L)
  | .loop w =>
    match (s.workers w).pc with
    | .looping i available => if i < available then [] else consumers (s.workers w).runnable
    | _ => []
  | .teardown =>
    match s.life with
    | .teardown _ .tasks => s.tasks.map Elem.val
    | _ => []
  | _ => []

inductive Op (n : Nat) (L : Types)
  | control (c : Control n)
  | schedule (th : Thread n) (token : Option Nat) (f : Callable L) (args : List L.Arg)
      (φ : Faults L)
  | scheduleAndForget (th : Thread n) (token : Option Nat) (f : Callable L)
      (args : List L.Arg) (φ : Faults L)
  | scheduleBulk (th : Thread n) (token : Option Nat) (array : List (Option (Callable L)))
      (φ : Faults L)
  | invoke (w : Fin n)

/-- Thread `th` can make a call now. -/
def ready (s : Process n L) (th : Thread n) : Bool :=
  s.pool.abort.isNone && s.pool.mayCall th

def step (B : Nat) (s : Process n L) : Op n L → Option (Process n L)
  | .control c =>
    (s.pool.step B (.control c)).map fun pool =>
      ⟨pool, (destroyed s.pool c).foldl Consumer.destroy s.heap⟩
  | .schedule th token f args φ =>
    if s.ready th then some (schedule φ th token f args s).2 else none
  | .scheduleAndForget th token f args φ =>
    if s.ready th then some (scheduleAndForget φ th token f args s).2 else none
  | .scheduleBulk th token array φ =>
    if s.ready th then some (scheduleBulk φ th token array s).2 else none
  | .invoke w => if s.pool.abort.isSome then none else s.invoke w

/-- The process with a pool of `n` threads and `BULK_MAX_ITEMS = B`. -/
def system (n B : Nat) (L : Types) : System (Process n L) (Op n L) where
  init := ⟨ParameterizedPool.init, []⟩
  step := step B

-- ---------------------------------------------------------------------------
-- Programs over the natural numbers, to run the model on
-- ---------------------------------------------------------------------------

/-- States, arguments, results and exceptions are numbers. -/
abbrev natTypes : Types := ⟨Nat, Nat, Nat, Nat⟩

/-- Adds its arguments to its state, which counts the calls. -/
def adder (state : Nat) : Callable natTypes :=
  ⟨fun s args => (.value (args.foldl (fun a b => a + b) s), s + 1), state⟩

def thrower (e : Nat) : Callable natTypes := ⟨fun s _ => (.exception (.user s), s), e⟩

/-- The worker of a pool of one thread. -/
def only : Fin 1 := 0

/-- The workers of a pool of two threads. -/
def first : Fin 2 := 0
def second : Fin 2 := 1

/-- The constructor, from its first thread to its return. -/
def construct (n : Nat) : List (Op n L) := List.replicate (n + 1) (.control .spawn)

/-- One turn of the loop of worker `w` up to its first call, with the first
`k` elements of the queue as its batch. -/
def takeBatch (w : Fin n) (k : Nat) : List (Op n L) :=
  .control (.check w) :: List.replicate k (.control (.dequeueElem w 0)) ++
    [.control (.dequeueReturn w), .control (.loop w)]

end Process

end ThreadPool.Model
