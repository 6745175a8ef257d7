import ThreadPool.Lib.LevelOrder

/-!
# ThreadPool — the event loop of `async_executor_t`

The executor of the examples and tests: `execute_async` puts a callable at
the end of a queue, `run` calls what it dequeues until the queue is empty.
One thread uses it, so the queue is a list. A callable may enqueue others
while it is called, and may throw after that; what it enqueues hangs below it
as a tree (`Lib/LevelOrder.lean`).

`run` recurs on the callables not called yet (`dequeue_shrinks`), so every
call of it ends. What it calls is the queue in level order, up to the first
callable that throws:

* `run_returns` — the case without a throw;
* `run_throws` — what a run that is cut short leaves behind;
* `breadth_first_drain` — any number of runs, one after the other.
-/

namespace ThreadPool.Model

open ThreadPool.Lib
open ThreadPool.Lib.RoseTree (nodes levelOrder)

variable {ν ε : Type}

/-- Which callable it is, and what it throws, if anything, at its end. -/
structure Body (ν ε : Type) where
  name : ν
  throws : Option ε

/-- A `callable_t` with the callables it enqueues when it is called. -/
abbrev AsyncExecutor.CallableT (ν ε : Type) := RoseTree (Body ν ε)

/-- `executed` is history. -/
structure AsyncExecutor (ν ε : Type) where
  queue : List (AsyncExecutor.CallableT ν ε)
  executed : List (AsyncExecutor.CallableT ν ε)

namespace AsyncExecutor

def init : AsyncExecutor ν ε := ⟨[], []⟩

def executeAsync (s : AsyncExecutor ν ε) (value : CallableT ν ε) : AsyncExecutor ν ε :=
  { s with queue := s.queue ++ [value] }

/-- `none` stands for `false`: there was no element to dequeue. -/
def dequeue (s : AsyncExecutor ν ε) : Option (CallableT ν ε × AsyncExecutor ν ε) :=
  match s.queue with
  | [] => none
  | callable :: rest => some (callable, { s with queue := rest })

/-- `callable()`: it enqueues its callables in order, then ends. -/
def call (s : AsyncExecutor ν ε) (callable : CallableT ν ε) :
    Except ε Unit × AsyncExecutor ν ε :=
  (match callable.label.throws with
    | some e => .error e
    | none => .ok (),
    callable.children.foldl executeAsync { s with executed := s.executed ++ [callable] })

/-- Enqueuing a list appends it. -/
theorem foldl_executeAsync (s : AsyncExecutor ν ε) (values : List (CallableT ν ε)) :
    values.foldl executeAsync s = { s with queue := s.queue ++ values } := by
  induction values generalizing s with
  | nil => simp
  | cons v values ih => simp [ih, executeAsync]

/-- After a turn of the loop one callable less is left to call. -/
theorem dequeue_shrinks {s s₁ : AsyncExecutor ν ε} {callable : CallableT ν ε}
    (hFront : s.dequeue = some (callable, s₁)) :
    (nodes (s₁.call callable).2.queue).length < (nodes s.queue).length := by
  unfold dequeue at hFront
  split at hFront
  · cases hFront
  · next c rest hQueue =>
    cases hFront
    have hRotate := RoseTree.length_nodes_rotate callable rest
    rw [call, foldl_executeAsync, hQueue]
    dsimp only
    omega

/-- The loop. An exception leaves it, with the queue as it is. -/
def run (s : AsyncExecutor ν ε) : Except ε Int × AsyncExecutor ν ε :=
  match _hFront : s.dequeue with
  | none => (.ok 0, s)
  | some (callable, s₁) =>
    match (s₁.call callable).1 with
    | .ok () => run (s₁.call callable).2
    | .error e => (.error e, (s₁.call callable).2)
termination_by (nodes s.queue).length
decreasing_by exact dequeue_shrinks _hFront

/-- The executor after `m` calls of `run`, whichever way they end. -/
def afterRuns : Nat → AsyncExecutor ν ε → AsyncExecutor ν ε
  | 0, s => s
  | m + 1, s => afterRuns m s.run.2

/-- How many callables of a list throw. -/
def throwers (cs : List (CallableT ν ε)) : Nat := cs.countP fun c => c.label.throws.isSome

variable {s : AsyncExecutor ν ε} {c : CallableT ν ε} {rest : List (CallableT ν ε)} {e : ε}

-- ---------------------------------------------------------------------------
-- One turn of the loop
-- ---------------------------------------------------------------------------

theorem run_nil (hQueue : s.queue = []) : s.run = (.ok 0, s) := by
  rw [run]
  split
  · rfl
  · next hFront =>
    rw [dequeue, hQueue] at hFront
    cases hFront

/-- What a turn of the loop leaves. -/
def turn (s : AsyncExecutor ν ε) (c : CallableT ν ε) (rest : List (CallableT ν ε)) :
    AsyncExecutor ν ε :=
  ⟨rest ++ c.children, s.executed ++ [c]⟩

theorem run_cons (hQueue : s.queue = c :: rest) :
    s.run = match c.label.throws with
      | none => (s.turn c rest).run
      | some e => (.error e, s.turn c rest) := by
  rw [run]
  split
  · next hFront =>
    rw [dequeue, hQueue] at hFront
    cases hFront
  · next callable s₁ hFront =>
    rw [dequeue, hQueue] at hFront
    cases hFront
    rw [call, foldl_executeAsync]
    cases c.label.throws <;> rfl

theorem run_cons_of_quiet (hQueue : s.queue = c :: rest) (hQuiet : c.label.throws = none) :
    s.run = (s.turn c rest).run := by
  rw [run_cons hQueue, hQuiet]

/-- A turn of the loop takes the first callable in level order. -/
theorem levelOrder_turn (hQueue : s.queue = c :: rest) :
    levelOrder s.queue = c :: levelOrder (s.turn c rest).queue := by
  rw [hQueue]
  exact RoseTree.levelOrder_cons c rest

-- ---------------------------------------------------------------------------
-- One run
-- ---------------------------------------------------------------------------

/-- Induction over the turns of the loop, up to an empty queue. -/
theorem turn_induction {P : AsyncExecutor ν ε → Prop} (hEmpty : ∀ s, s.queue = [] → P s)
    (hTurn : ∀ s c rest, s.queue = c :: rest → P (s.turn c rest) → P s)
    (s : AsyncExecutor ν ε) : P s := by
  induction hSize : (nodes s.queue).length using Nat.strong_induction_on generalizing s with
  | _ m ih =>
    cases hQueue : s.queue with
    | nil => exact hEmpty s hQueue
    | cons c rest =>
      refine hTurn s c rest hQueue (ih _ ?_ _ rfl)
      have hRotate := RoseTree.length_nodes_rotate c rest
      rw [hQueue] at hSize
      simp only [turn]
      omega

/-- **A run without a throw.** It calls what is queued, and below, in level
order, and empties the queue. -/
theorem run_returns (s : AsyncExecutor ν ε)
    (hQuiet : ∀ c ∈ levelOrder s.queue, c.label.throws = none) :
    s.run = (.ok 0, ⟨[], s.executed ++ levelOrder s.queue⟩) := by
  induction s using turn_induction with
  | hEmpty s hQueue =>
    rw [run_nil hQueue, hQueue, RoseTree.levelOrder_nil, List.append_nil, ← hQueue]
  | hTurn s c rest hQueue ih =>
    rw [levelOrder_turn hQueue] at hQuiet ⊢
    have hRest := ih fun d hd => hQuiet d (List.mem_cons_of_mem _ hd)
    rw [run_cons_of_quiet hQueue (hQuiet c List.mem_cons_self), hRest]
    simp [turn]

/-- **A run that throws.** It calls what comes before the first callable that
throws, and that one; what comes after it is what the queue holds, in level
order. -/
theorem run_throws (s : AsyncExecutor ν ε) {done : List (CallableT ν ε)}
    (hOrder : levelOrder s.queue = done ++ c :: rest)
    (hQuiet : ∀ d ∈ done, d.label.throws = none) (hThrow : c.label.throws = some e) :
    ∃ queue, s.run = (.error e, ⟨queue, s.executed ++ (done ++ [c])⟩) ∧
      levelOrder queue = rest ∧
      done ++ [c] ++ queue = s.queue ++ (done ++ [c]).flatMap RoseTree.children := by
  induction s using turn_induction generalizing done with
  | hEmpty s hQueue =>
    rw [hQueue, RoseTree.levelOrder_nil] at hOrder
    simp at hOrder
  | hTurn s d ds hQueue ih =>
    rw [levelOrder_turn hQueue] at hOrder
    cases done with
    | nil =>
      -- the front is the one that throws
      rw [List.nil_append, List.cons.injEq] at hOrder
      obtain ⟨rfl, hRest⟩ := hOrder
      refine ⟨ds ++ d.children, ?_, hRest, by simp [hQueue]⟩
      rw [run_cons hQueue, hThrow]
      rfl
    | cons d' done =>
      rw [List.cons_append, List.cons.injEq] at hOrder
      obtain ⟨rfl, hRest⟩ := hOrder
      obtain ⟨queue, hRun, hLeft, hAll⟩ :=
        ih hRest fun x hx => hQuiet x (List.mem_cons_of_mem _ hx)
      refine ⟨queue, ?_, hLeft, ?_⟩
      · rw [run_cons_of_quiet hQueue (hQuiet d List.mem_cons_self), hRun]
        simp [turn]
      · -- what the front enqueues comes after what was queued, before the rest
        simp only [turn] at hAll
        rw [List.cons_append, List.cons_append, hAll, hQueue]
        simp

-- ---------------------------------------------------------------------------
-- Several runs
-- ---------------------------------------------------------------------------

/-- A list without a thrower is quiet; any other has a first one. -/
theorem throwers_cases (cs : List (CallableT ν ε)) :
    (throwers cs = 0 ∧ ∀ d ∈ cs, d.label.throws = none) ∨
      ∃ done c e rest, cs = done ++ c :: rest ∧ (∀ d ∈ done, d.label.throws = none) ∧
        c.label.throws = some e ∧ throwers cs = throwers rest + 1 := by
  induction cs with
  | nil => exact .inl ⟨rfl, by simp⟩
  | cons d cs ih =>
    cases hThrow : d.label.throws with
    | some e => exact .inr ⟨[], d, e, cs, rfl, by simp, hThrow, by simp [throwers, hThrow]⟩
    | none =>
      have hCount : throwers (d :: cs) = throwers cs := by simp [throwers, hThrow]
      rcases ih with ⟨hZero, hQuiet⟩ | ⟨done, c, e, rest, rfl, hQuiet, hThrow', hMore⟩
      · exact .inl ⟨hCount.trans hZero, by simpa [hThrow] using hQuiet⟩
      · exact .inr ⟨d :: done, c, e, rest, rfl, by simpa [hThrow] using hQuiet, hThrow',
          hCount.trans hMore⟩

/-- The run that reaches a callable that throws, after the runs that the
throwers before it end. -/
theorem run_after_throwers (s : AsyncExecutor ν ε) {done : List (CallableT ν ε)}
    (hOrder : levelOrder s.queue = done ++ c :: rest) (hThrow : c.label.throws = some e) :
    ∃ queue, (afterRuns (throwers done) s).run =
        (.error e, ⟨queue, s.executed ++ (done ++ [c])⟩) ∧
      levelOrder queue = rest ∧
      done ++ [c] ++ queue = s.queue ++ (done ++ [c]).flatMap RoseTree.children := by
  induction hCount : throwers done generalizing s done with
  | zero =>
    have hQuiet : ∀ d ∈ done, d.label.throws = none := by
      rcases throwers_cases done with ⟨-, hQuiet⟩ | ⟨_, _, _, _, -, -, -, hMore⟩
      · exact hQuiet
      · omega
    exact run_throws s hOrder hQuiet hThrow
  | succ m ih =>
    rcases throwers_cases done with ⟨hZero, -⟩ | ⟨old, c', e', new, rfl, hQuiet, hThrow', hMore⟩
    · omega
    -- the first thrower ends this run; the next one starts on what it leaves
    have hSplit : levelOrder s.queue = old ++ c' :: (new ++ c :: rest) := by
      rw [hOrder, List.append_assoc, List.cons_append]
    obtain ⟨queue, hRun, hLeft, hAll⟩ := run_throws s hSplit hQuiet hThrow'
    obtain ⟨queue', hRun', hLeft', hAll'⟩ :=
      ih ⟨queue, s.executed ++ (old ++ [c'])⟩ hLeft (by omega)
    refine ⟨queue', ?_, hLeft', ?_⟩
    · rw [afterRuns, hRun, hRun']
      simp
    · calc old ++ c' :: new ++ [c] ++ queue' = old ++ [c'] ++ (new ++ [c] ++ queue') := by simp
        _ = old ++ [c'] ++ queue ++ (new ++ [c]).flatMap RoseTree.children := by
          rw [hAll', List.append_assoc (old ++ [c'])]
        _ = s.queue ++ (old ++ c' :: new ++ [c]).flatMap RoseTree.children := by
          rw [hAll]
          simp

/-- The run after the last throw returns. -/
theorem run_after_all (s : AsyncExecutor ν ε) :
    (afterRuns (throwers (levelOrder s.queue)) s).run =
      (.ok 0, ⟨[], s.executed ++ levelOrder s.queue⟩) := by
  induction hCount : throwers (levelOrder s.queue) generalizing s with
  | zero =>
    rcases throwers_cases (levelOrder s.queue) with ⟨-, hQuiet⟩ | ⟨_, _, _, _, -, -, -, hMore⟩
    · exact run_returns s hQuiet
    · omega
  | succ m ih =>
    rcases throwers_cases (levelOrder s.queue) with
      ⟨hZero, -⟩ | ⟨done, c, e, rest, hOrder, hQuiet, hThrow, hMore⟩
    · omega
    obtain ⟨queue, hRun, hLeft, -⟩ := run_throws s hOrder hQuiet hThrow
    have hNext := ih ⟨queue, s.executed ++ (done ++ [c])⟩ (by rw [hLeft]; omega)
    rw [afterRuns, hRun, hNext, hLeft, hOrder]
    simp

end AsyncExecutor

/-- **A breadth-first drain.** Enqueue callables, in order, and call `run`
again and again. The level order of the callables visits each of them and
each one they enqueue, once. A run without a throw calls them in that order,
empties the queue and returns 0. Let `c` be one that throws, with `done`
before it in level order and `rest` after it: of the runs, the one that
follows as many as throw in `done` propagates the exception of `c`; `done`
and `c` have been called, in order; `rest` is the level order of what is
queued, which is all that was enqueued so far less what was called. After as
many runs as callables throw, one more returns 0, with everything called in
level order and nothing left. -/
theorem breadth_first_drain (roots : List (AsyncExecutor.CallableT ν ε)) :
    (levelOrder roots).Perm (nodes roots) ∧
      ((∀ c ∈ levelOrder roots, c.label.throws = none) →
        (roots.foldl AsyncExecutor.executeAsync .init).run = (.ok 0, ⟨[], levelOrder roots⟩)) ∧
      (∀ done c rest e, levelOrder roots = done ++ c :: rest → c.label.throws = some e →
        ∃ queue, (AsyncExecutor.afterRuns (AsyncExecutor.throwers done)
            (roots.foldl AsyncExecutor.executeAsync .init)).run =
              (.error e, ⟨queue, done ++ [c]⟩) ∧
          levelOrder queue = rest ∧
          done ++ [c] ++ queue = roots ++ (done ++ [c]).flatMap RoseTree.children) ∧
      (AsyncExecutor.afterRuns (AsyncExecutor.throwers (levelOrder roots))
        (roots.foldl AsyncExecutor.executeAsync .init)).run = (.ok 0, ⟨[], levelOrder roots⟩) := by
  have hStart : roots.foldl AsyncExecutor.executeAsync .init =
      (⟨roots, []⟩ : AsyncExecutor ν ε) := AsyncExecutor.foldl_executeAsync _ _
  rw [hStart]
  refine ⟨RoseTree.levelOrder_perm roots, fun hQuiet => ?_,
    fun done c rest e hOrder hThrow => ?_, ?_⟩
  · exact AsyncExecutor.run_returns ⟨roots, []⟩ hQuiet
  · exact AsyncExecutor.run_after_throwers ⟨roots, []⟩ hOrder hThrow
  · exact AsyncExecutor.run_after_all ⟨roots, []⟩

end ThreadPool.Model
