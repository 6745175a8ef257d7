import ThreadPool.Model.Definitions

/-!
# ThreadPool — what a call does

One specification for each scheduling function (`schedule_eq`,
`scheduleAndForget_eq`, `scheduleBulk_eq`): the points it reaches, in order,
decide whether it throws; if none does and the queue does not refuse, its
elements are appended. `Succeeds` is a successful call of any of them, with
its tasks. From the specifications `Process.step_cases` inverts the step
function of the process, and `Process.simulation` shows that the pool inside
the process takes the steps of `Model/Impl.lean`, so that every result about
the pool alone holds inside the process.
-/

namespace ThreadPool.Model

open ThreadPool.Lib

variable {n : Nat} {L : Types}

-- ---------------------------------------------------------------------------
-- Running code that may throw
-- ---------------------------------------------------------------------------

/-- The first of some points that throws. -/
def Faults.first (φ : Faults L) (pts : List Point) : Option (Exn L) := pts.findSome? φ.throws

/-- The exception an outcome carries. -/
def Outcome.thrown : Outcome L → Option (Exn L)
  | .value _ => none
  | .exception e => some e

/-- The points passed while `std::bind` copies. -/
def bindPoints (args : List L.Arg) : List Point :=
  .bindCallable :: (List.range args.length).map .bindArg

/-- The points passed while the queue constructs `k` elements. -/
def elementPoints (k : Nat) : List Point := (List.range k).map .element

theorem Faults.first_element (φ : Faults L) :
    φ.first (elementPoints 1) = φ.throws (.element 0) := by
  simp [Faults.first, elementPoints, List.range_succ]

section Eval

variable {α β : Type} {s : Process n L}

theorem bind_apply (x : Eval n L α) (f : α → Eval n L β) :
    (x >>= f) s = match x s with
      | .ok a s' => f a s'
      | .error e s' => .error e s' := by
  change EStateM.bind x f s = _
  unfold EStateM.bind
  cases x s <;> rfl

theorem get_apply : (get : Eval n L (Process n L)) s = .ok s s := rfl

theorem reach_apply (φ : Faults L) (pt : Point) :
    (φ.reach pt : Eval n L Unit) s = match φ.throws pt with
      | some e => .error e s
      | none => .ok () s := by
  unfold Faults.reach
  cases φ.throws pt <;> rfl

/-- Copying a list passes its points in order and changes nothing. -/
theorem copyEach_apply (φ : Faults L) (pt : Nat → Point) (k : Nat) (l : List β) :
    (φ.copyEach pt k l : Eval n L Unit) s =
      match φ.first ((List.range' k l.length).map pt) with
      | some e => .error e s
      | none => .ok () s := by
  induction l generalizing k with
  | nil => rfl
  | cons b l ih =>
    rw [Faults.copyEach, bind_apply, reach_apply, List.length_cons, List.range'_succ,
      List.map_cons, Faults.first, List.findSome?_cons]
    cases φ.throws (pt k) with
    | some e => rfl
    | none => exact ih (k + 1)

theorem bind_points_apply (φ : Faults L) (f : Callable L) (args : List L.Arg) :
    (φ.bind f args : Eval n L (Bound L)) s =
      match φ.first (bindPoints args) with
      | some e => .error e s
      | none => .ok ⟨f, args⟩ s := by
  rw [Faults.bind, bind_apply, reach_apply, Faults.first, bindPoints, List.findSome?_cons]
  cases φ.throws .bindCallable with
  | some e => rfl
  | none =>
    dsimp only
    rw [bind_apply, copyEach_apply, Faults.first, ← List.range_eq_range']
    cases List.findSome? φ.throws ((List.range args.length).map .bindArg) <;> rfl

/-- What `schedule` and `schedule_and_forget` have in common: bind, pass two
more points, and go on with the bound object. -/
theorem prepare_apply (φ : Faults L) (f : Callable L) (args : List L.Arg) (p q : Point)
    (rest : Bound L → Eval n L β) :
    (do
      let bound ← φ.bind f args
      φ.reach p
      φ.reach q
      rest bound) s =
      match φ.first (bindPoints args ++ [p, q]) with
      | some e => .error e s
      | none => rest ⟨f, args⟩ s := by
  rw [bind_apply, bind_points_apply, Faults.first, Faults.first, List.findSome?_append]
  cases List.findSome? φ.throws (bindPoints args) with
  | some e => rfl
  | none =>
    dsimp only
    rw [Option.none_or, List.findSome?_cons, bind_apply, reach_apply]
    cases φ.throws p with
    | some e => rfl
    | none =>
      dsimp only
      rw [List.findSome?_cons, bind_apply, reach_apply]
      cases φ.throws q <;> rfl

theorem enqueue_apply (φ : Faults L) (p : Producer n) (cs : List (Consumer L)) :
    φ.enqueue p cs s =
      if φ.refuses then .ok false s
      else match φ.first (elementPoints cs.length) with
        | some e => .error e s
        | none => .ok true { s with pool := s.pool.enqueue p cs } := by
  unfold Faults.enqueue
  split
  · rfl
  · rw [bind_apply, copyEach_apply, ← List.range_eq_range', elementPoints]
    cases φ.first ((List.range cs.length).map .element) <;> rfl

end Eval

-- ---------------------------------------------------------------------------
-- Specifications of the scheduling functions
-- ---------------------------------------------------------------------------

namespace Process

variable {s : Process n L}

/-- The process after a successful `schedule` of `b`. -/
def scheduled (s : Process n L) (p : Producer n) (b : Bound L) : Process n L where
  pool := s.pool.enqueue p [.packaged s.heap.length]
  heap := s.heap ++ [⟨b, .pending, 1, s.pool.accepted.length, b⟩]

/-- The process after `noexcept` has stopped an exception. -/
def stopped (s : Process n L) : Process n L := { s with pool := s.pool.kill .noexceptThrow }

/-- The process after the queue took `cs`. -/
def accepted (s : Process n L) (p : Producer n) (cs : List (Consumer L)) : Process n L :=
  { s with pool := s.pool.enqueue p cs }

/-- The points of `schedule` up to the enqueue. -/
def schedulePoints (args : List L.Arg) : List Point :=
  bindPoints args ++ [.makeShared, .consumer]

/-- The points of `schedule_and_forget` up to the enqueue. -/
def forgetPoints (args : List L.Arg) : List Point :=
  bindPoints args ++ [.function, .consumer]

theorem schedule_eq (φ : Faults L) (th : Thread n) (token : Option Nat) (f : Callable L)
    (args : List L.Arg) :
    schedule φ th token f args s =
      match φ.first (schedulePoints args) with
      | some e => (.threw e, s)
      | none =>
        if φ.refuses then (.threw ((φ.throws .lengthError).getD .lengthError), s)
        else match φ.throws (.element 0) with
          | some e => (.threw e, s)
          | none => (.returned s.heap.length, s.scheduled (th.producer token) ⟨f, args⟩) := by
  unfold schedule call
  rw [prepare_apply, schedulePoints]
  cases φ.first (bindPoints args ++ [.makeShared, .consumer]) with
  | some e => rfl
  | none =>
    dsimp only
    rw [bind_apply, get_apply]
    dsimp only
    rw [bind_apply, enqueue_apply]
    -- the queue refuses before it constructs anything
    by_cases hRefuses : φ.refuses = true
    · simp only [hRefuses, if_true]
      simp only [Bool.false_eq_true, if_false]
      rw [bind_apply, reach_apply]
      cases φ.throws .lengthError <;> rfl
    · simp only [hRefuses]
      rw [List.length_singleton, φ.first_element]
      cases φ.throws (.element 0) <;> rfl

theorem scheduleAndForget_eq (φ : Faults L) (th : Thread n) (token : Option Nat)
    (f : Callable L) (args : List L.Arg) :
    scheduleAndForget φ th token f args s =
      match φ.first (forgetPoints args) with
      | some _ => (.terminated, s.stopped)
      | none =>
        if φ.refuses then (.returned false, s)
        else match φ.throws (.element 0) with
          | some _ => (.terminated, s.stopped)
          | none =>
            (.returned true, s.accepted (th.producer token) [.function ⟨f, args⟩]) := by
  unfold scheduleAndForget noexcept
  rw [prepare_apply, forgetPoints]
  cases φ.first (bindPoints args ++ [.function, .consumer]) with
  | some e => rfl
  | none =>
    dsimp only
    rw [enqueue_apply]
    by_cases hRefuses : φ.refuses = true
    · simp [hRefuses]
    · simp only [hRefuses]
      rw [List.length_singleton, φ.first_element]
      cases φ.throws (.element 0) <;> rfl

theorem scheduleBulk_eq (φ : Faults L) (th : Thread n) (token : Option Nat)
    (array : List (Option (Callable L))) :
    scheduleBulk φ th token array s =
      if φ.refuses then (.returned false, s)
      else match φ.first (elementPoints array.length) with
        | some _ => (.terminated, s.stopped)
        | none =>
          (.returned true, s.accepted (th.producer token) (array.map Consumer.ofFunction)) := by
  unfold scheduleBulk noexcept
  rw [enqueue_apply, List.length_map]
  by_cases hRefuses : φ.refuses = true
  · simp [hRefuses]
  · simp only [hRefuses]
    cases φ.first (elementPoints array.length) <;> rfl

-- ---------------------------------------------------------------------------
-- Successful calls
-- ---------------------------------------------------------------------------

/-- A call of thread `th` in state `s` succeeds, with or without a token, and
leads to the state `s'`; `cs` are the tasks it was made for, those of an array
in index order. -/
inductive Succeeds (s : Process n L) (th : Thread n) (token : Option Nat) :
    List (Consumer L) → Process n L → Prop
  | schedule {φ : Faults L} {f : Callable L} {args : List L.Arg} {j : Nat} {s' : Process n L}
      (hCall : schedule φ th token f args s = (.returned j, s')) :
      Succeeds s th token [.packaged j] s'
  | scheduleAndForget {φ : Faults L} {f : Callable L} {args : List L.Arg} {s' : Process n L}
      (hCall : scheduleAndForget φ th token f args s = (.returned true, s')) :
      Succeeds s th token [.function ⟨f, args⟩] s'
  | scheduleBulk {φ : Faults L} {array : List (Option (Callable L))} {s' : Process n L}
      (hCall : scheduleBulk φ th token array s = (.returned true, s')) :
      Succeeds s th token
        (array.map fun
          | none => .empty
          | some f => .function ⟨f, []⟩) s'

theorem schedule_returned {φ : Faults L} {th : Thread n} {token : Option Nat} {f : Callable L}
    {args : List L.Arg} {j : Nat} {s' : Process n L}
    (h : schedule φ th token f args s = (.returned j, s')) :
    j = s.heap.length ∧ s' = s.scheduled (th.producer token) ⟨f, args⟩ := by
  rw [schedule_eq] at h
  split at h
  · cases h
  · split at h
    · cases h
    · split at h
      · cases h
      · cases h
        exact ⟨rfl, rfl⟩

theorem scheduleAndForget_returned {φ : Faults L} {th : Thread n} {token : Option Nat}
    {f : Callable L} {args : List L.Arg} {s' : Process n L}
    (h : scheduleAndForget φ th token f args s = (.returned true, s')) :
    s' = s.accepted (th.producer token) [.function ⟨f, args⟩] := by
  rw [scheduleAndForget_eq] at h
  split at h
  · cases h
  · split at h
    · cases h
    · split at h
      · cases h
      · cases h
        rfl

theorem scheduleBulk_returned {φ : Faults L} {th : Thread n} {token : Option Nat}
    {array : List (Option (Callable L))} {s' : Process n L}
    (h : scheduleBulk φ th token array s = (.returned true, s')) :
    s' = s.accepted (th.producer token) (array.map Consumer.ofFunction) := by
  rw [scheduleBulk_eq] at h
  split at h
  · cases h
  · split at h
    · cases h
    · cases h
      rfl

/-- A successful call appends its tasks, whichever function it is of. -/
theorem Succeeds.pool {th : Thread n} {token : Option Nat} {cs : List (Consumer L)}
    {s' : Process n L} (h : Succeeds s th token cs s') :
    s'.pool = s.pool.enqueue (th.producer token) cs := by
  cases h with
  | schedule hCall =>
    obtain ⟨rfl, rfl⟩ := schedule_returned hCall
    rfl
  | scheduleAndForget hCall =>
    obtain rfl := scheduleAndForget_returned hCall
    rfl
  | scheduleBulk hCall =>
    obtain rfl := scheduleBulk_returned hCall
    have hSame : (fun | none => .empty | some f => .function ⟨f, []⟩) =
        (Consumer.ofFunction : Option (Callable L) → Consumer L) := by
      funext f
      cases f <;> rfl
    rw [hSame]
    rfl

-- ---------------------------------------------------------------------------
-- Calling a consumer
-- ---------------------------------------------------------------------------

/-- A plain function lets its exception out. -/
theorem call_function (b : Bound L) (heap : Heap L) :
    (Consumer.function b).call heap = ((b.callable.outcome b.args).thrown, heap) := by
  simp only [Consumer.call, Bound.invoke]
  cases b.callable.outcome b.args <;> rfl

/-- A packaged task that was not called before keeps it. -/
theorem call_packaged {heap : Heap L} {j : Nat} {t : PackagedTask L} (hj : heap[j]? = some t)
    (hPending : t.shared = .pending) :
    (Consumer.packaged j).call heap = (none, heap.set j
      { t with bound := t.bound.invoke.2, shared := .ready t.bound.invoke.1 }) := by
  simp only [Consumer.call, hj, hPending]

/-- A packaged task that was called before, or does not exist. -/
theorem call_packaged_again {heap : Heap L} {j : Nat}
    (h : ∀ t, heap[j]? = some t → t.shared ≠ .pending) :
    (Consumer.packaged j).call heap = (some .futureError, heap) := by
  simp only [Consumer.call]
  cases hj : heap[j]? with
  | none => rfl
  | some t =>
    cases hShared : t.shared with
    | pending => exact absurd hShared (h t hj)
    | _ => simp [hShared]

/-- Calling a consumer resolves the pending packaged task it names, or
leaves the heap alone. -/
theorem call_heap {c : Consumer L} {heap heap' : Heap L} {r : Option (Exn L)}
    (h : c.call heap = (r, heap')) :
    heap' = heap ∨ ∃ j t, c = .packaged j ∧ heap[j]? = some t ∧ t.shared = .pending ∧ r = none ∧
      heap' = heap.set j
        { t with bound := t.bound.invoke.2, shared := .ready t.bound.invoke.1 } := by
  cases c with
  | empty => exact .inl (Prod.mk.inj h).2.symm
  | function b =>
    rw [call_function] at h
    exact .inl (Prod.mk.inj h).2.symm
  | packaged j =>
    by_cases hPending : ∃ t, heap[j]? = some t ∧ t.shared = .pending
    · obtain ⟨t, hj, hShared⟩ := hPending
      rw [call_packaged hj hShared] at h
      exact .inr ⟨j, t, rfl, hj, hShared, (Prod.mk.inj h).1.symm, (Prod.mk.inj h).2.symm⟩
    · rw [call_packaged_again fun t hj hShared => hPending ⟨t, hj, hShared⟩] at h
      exact .inl (Prod.mk.inj h).2.symm

-- ---------------------------------------------------------------------------
-- Inversion of the step function of the process
-- ---------------------------------------------------------------------------

/-- The scheduling call behind a label, with its thread and the result of
running it. -/
inductive Calls (s : Process n L) : Op n L → Thread n → Process n L → Prop
  | schedule (th : Thread n) (token : Option Nat) (f : Callable L) (args : List L.Arg)
      (φ : Faults L) : Calls s (.schedule th token f args φ) th (schedule φ th token f args s).2
  | scheduleAndForget (th : Thread n) (token : Option Nat) (f : Callable L)
      (args : List L.Arg) (φ : Faults L) :
      Calls s (.scheduleAndForget th token f args φ) th
        (scheduleAndForget φ th token f args s).2
  | scheduleBulk (th : Thread n) (token : Option Nat) (array : List (Option (Callable L)))
      (φ : Faults L) :
      Calls s (.scheduleBulk th token array φ) th (scheduleBulk φ th token array s).2

/-- What a scheduling call leaves behind. -/
inductive Effect (s : Process n L) (th : Thread n) : Op n L → Process n L → Prop
  | failed (op : Op n L) : Effect s th op s
  | stopped (op : Op n L) : Effect s th op s.stopped
  | scheduled (token : Option Nat) (f : Callable L) (args : List L.Arg) (φ : Faults L) :
      Effect s th (.schedule th token f args φ) (s.scheduled (th.producer token) ⟨f, args⟩)
  | forgotten (token : Option Nat) (f : Callable L) (args : List L.Arg) (φ : Faults L) :
      Effect s th (.scheduleAndForget th token f args φ)
        (s.accepted (th.producer token) [.function ⟨f, args⟩])
  | bulk (token : Option Nat) (array : List (Option (Callable L))) (φ : Faults L) :
      Effect s th (.scheduleBulk th token array φ)
        (s.accepted (th.producer token) (array.map Consumer.ofFunction))

theorem Calls.effect {op : Op n L} {th : Thread n} {s' : Process n L} (h : Calls s op th s') :
    Effect s th op s' := by
  cases h with
  | schedule th token f args φ =>
    rw [schedule_eq]
    split
    · exact .failed _
    · split
      · exact .failed _
      · split
        · exact .failed _
        · exact .scheduled token f args φ
  | scheduleAndForget th token f args φ =>
    rw [scheduleAndForget_eq]
    split
    · exact .stopped _
    · split
      · exact .failed _
      · split
        · exact .stopped _
        · exact .forgotten token f args φ
  | scheduleBulk th token array φ =>
    rw [scheduleBulk_eq]
    split
    · exact .failed _
    · split
      · exact .stopped _
      · exact .bulk token array φ

/-- Every way a step of the process can go. -/
inductive Step (B : Nat) (s : Process n L) : Op n L → Process n L → Prop
  | control (c : Control n) (pool : ParameterizedPool n (Consumer L))
      (hPool : s.pool.step B (.control c) = some pool) :
      Step B s (.control c) ⟨pool, (destroyed s.pool c).foldl Consumer.destroy s.heap⟩
  | call (op : Op n L) (th : Thread n) (s' : Process n L) (hReady : s.ready th = true)
      (hCalls : Calls s op th s') : Step B s op s'
  | returned (w : Fin n) (e : Elem n (Consumer L)) (heap : Heap L)
      (pool : ParameterizedPool n (Consumer L)) (hCur : s.pool.current w = some e)
      (hCall : e.val.call s.heap = (none, heap))
      (hPool : s.pool.step B (.taskReturn w) = some pool) : Step B s (.invoke w) ⟨pool, heap⟩
  | threw (w : Fin n) (e : Elem n (Consumer L)) (x : Exn L) (heap : Heap L)
      (pool : ParameterizedPool n (Consumer L)) (hCur : s.pool.current w = some e)
      (hCall : e.val.call s.heap = (some x, heap))
      (hPool : s.pool.step B (.taskThrow w) = some pool) : Step B s (.invoke w) ⟨pool, heap⟩

/-- **Inversion.** A step of the process is one of `Step`. -/
theorem step_cases {B : Nat} {op : Op n L} {s' : Process n L} (h : s.step B op = some s') :
    Step B s op s' := by
  cases op with
  | control c =>
    obtain ⟨pool, hPool, rfl⟩ := Option.map_eq_some_iff.mp h
    exact .control c pool hPool
  | schedule th token f args φ =>
    obtain ⟨hReady, hEq⟩ := Option.ite_none_right_eq_some.mp h
    cases hEq
    exact .call _ th _ hReady (.schedule th token f args φ)
  | scheduleAndForget th token f args φ =>
    obtain ⟨hReady, hEq⟩ := Option.ite_none_right_eq_some.mp h
    cases hEq
    exact .call _ th _ hReady (.scheduleAndForget th token f args φ)
  | scheduleBulk th token array φ =>
    obtain ⟨hReady, hEq⟩ := Option.ite_none_right_eq_some.mp h
    cases hEq
    exact .call _ th _ hReady (.scheduleBulk th token array φ)
  | invoke w =>
    simp only [Process.step, Process.invoke] at h
    split at h
    · simp at h
    · next hAbort =>
      -- the process is alive, so a step of the pool is the bare function
      have hStep : ∀ a, s.pool.step B a = match a with
          | .taskReturn v => s.pool.taskReturn v
          | .taskThrow v => s.pool.taskThrow v
          | a => s.pool.step B a := by
        intro a
        cases a <;> simp [ParameterizedPool.step, hAbort]
      split at h
      · next e hCur =>
        split at h
        · next heap hCall =>
          obtain ⟨pool, hPool, rfl⟩ := Option.map_eq_some_iff.mp h
          exact .returned w e heap pool hCur hCall (by rw [hStep]; exact hPool)
        · next x heap hCall =>
          obtain ⟨pool, hPool, rfl⟩ := Option.map_eq_some_iff.mp h
          exact .threw w e x heap pool hCur hCall (by rw [hStep]; exact hPool)
      · simp at h

-- ---------------------------------------------------------------------------
-- The pool inside the process
-- ---------------------------------------------------------------------------

theorem ready_iff {th : Thread n} :
    s.ready th = true ↔ s.pool.abort = none ∧ s.pool.mayCall th = true := by
  rw [ready, Bool.and_eq_true, Option.isNone_iff_eq_none]

/-- The pool's view of a step of the process: one step, or none at all. A
control step of the pool is the same control step of the process. -/
theorem Step.pool {B : Nat} {op : Op n L} {s' : Process n L} (h : Step B s op s') :
    s'.pool = s.pool ∨
      ∃ a, s.pool.step B a = some s'.pool ∧ ∀ c, a = .control c → op = .control c := by
  cases h with
  | control c pool hPool => exact .inr ⟨_, hPool, fun c' hEq => by cases hEq; rfl⟩
  | call op th s' hReady hCalls =>
    obtain ⟨hAbort, hCall⟩ := ready_iff.mp hReady
    -- whatever a call accepts, the pool sees one enqueue
    have hEnqueue : ∀ token cs, s.pool.step B (.enqueue th token cs) =
        some (s.pool.enqueue (th.producer token) cs) := by
      intro token cs
      simp [ParameterizedPool.step, hAbort, hCall]
    cases hCalls.effect with
    | failed => exact .inl rfl
    | stopped =>
      refine .inr ⟨.noexceptThrow th, ?_, fun c hEq => by cases hEq⟩
      simp [ParameterizedPool.step, hAbort, hCall, Process.stopped]
    | scheduled token f args φ => exact .inr ⟨_, hEnqueue token _, fun c hEq => by cases hEq⟩
    | forgotten token f args φ => exact .inr ⟨_, hEnqueue token _, fun c hEq => by cases hEq⟩
    | bulk token array φ => exact .inr ⟨_, hEnqueue token _, fun c hEq => by cases hEq⟩
  | returned w e heap pool hCur hCall hPool =>
    exact .inr ⟨_, hPool, fun c hEq => by cases hEq⟩
  | threw w e x heap pool hCur hCall hPool =>
    exact .inr ⟨_, hPool, fun c hEq => by cases hEq⟩

/-- A control step of the pool is a step of the process. -/
theorem step_control {B : Nat} {c : Control n} {pool : ParameterizedPool n (Consumer L)}
    (hPool : s.pool.step B (.control c) = some pool) :
    (system n B L).step s (.control c) =
      some ⟨pool, (destroyed s.pool c).foldl Consumer.destroy s.heap⟩ := by
  simp [system, step, hPool]

theorem pool_of_step_control {B : Nat} {c : Control n} {s' : Process n L}
    (h : (system n B L).step s (.control c) = some s') :
    s.pool.step B (.control c) = some s'.pool := by
  obtain ⟨pool, hPool, rfl⟩ := Option.map_eq_some_iff.mp h
  exact hPool

/-- **Refinement.** The process refines the pool alone. -/
def simulation (n B : Nat) (L : Types) :
    System.Simulation (system n B L) (ParameterizedPool.system n B (Consumer L)) where
  view := Process.pool
  init := rfl
  step := by
    intro s op s' hStep
    rcases (step_cases hStep).pool with hEq | ⟨a, hPool, -⟩
    · rw [hEq]
      exact .refl _
    · exact .single hPool

theorem pool_reachable {B : Nat} (h : (system n B L).Reachable s) :
    (ParameterizedPool.system n B (Consumer L)).Reachable s.pool :=
  (simulation n B L).reachable h

/-- A guard on the control steps of the pool, inside the process. -/
def guard (g : ParameterizedPool n (Consumer L) → Control n → Bool) :
    Process n L → Op n L → Bool
  | s, .control c => g s.pool c
  | _, _ => true

/-- The refinement respects guards on the control steps. -/
def guardedSimulation (n B : Nat) (L : Types)
    (g : ParameterizedPool n (Consumer L) → Control n → Bool) :
    System.Simulation ((system n B L).restrict (guard g))
      ((ParameterizedPool.system n B (Consumer L)).restrict (ParameterizedPool.guard g)) where
  view := Process.pool
  init := rfl
  step := by
    intro s op s' hStep
    obtain ⟨hGuard, hPlain⟩ := System.restrict_step.mp hStep
    rcases (step_cases hPlain).pool with hEq | ⟨a, hPool, hSame⟩
    · rw [hEq]
      exact .refl _
    · refine .single (System.restrict_step.mpr ⟨?_, hPool⟩)
      cases a with
      | control c =>
        rw [hSame c rfl] at hGuard
        exact hGuard
      | _ => rfl

end Process

end ThreadPool.Model
