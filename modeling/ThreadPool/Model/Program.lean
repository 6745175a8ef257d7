import ThreadPool.Model.Callable

/-!
# ThreadPool — binding one object to several pools

A program with any number of pools: the caller's objects and the `callable_t`
made from them are shared, each `callable_t` remembers the pool it was bound
to. Seen from one pool the program is a session (`Program.simulation`), so
the results about one pool hold of each.

An overload of `bind` copies the object or moves from it (`forwards`), and
converts the arguments of a call or leaves them as they are (`target`). Over a
sequence of binds and direct calls of one lvalue:

* `Session.object_step` — while nothing moves from it, the object is what its
  direct calls alone make of it;
* `Program.intact_of_kept` — then every `callable_t` made from it computes
  its function, if the parameters do not change that;
* `bind_intact` — this holds exactly when no bind goes through `L& lambda`.
-/

namespace ThreadPool.Model

open ThreadPool.Lib

variable {n : Nat} {L : Types}

-- ---------------------------------------------------------------------------
-- One object
-- ---------------------------------------------------------------------------

/-- The object after a direct call. -/
def Callable.called (f : Callable L) (args : List L.Arg) : Callable L :=
  { f with state := (f.code f.state args).2 }

/-- The object after direct calls with these arguments. -/
def Callable.after (f : Callable L) (calls : List (List L.Arg)) : Callable L :=
  calls.foldl Callable.called f

/-- No call changes the captured state, as with a `const` call operator. -/
def Callable.Const (f : Callable L) : Prop := ∀ args, (f.code f.state args).2 = f.state

@[simp] theorem Callable.after_nil (f : Callable L) : f.after [] = f := rfl

theorem Callable.after_append (f : Callable L) (calls more : List (List L.Arg)) :
    f.after (calls ++ more) = (f.after calls).after more :=
  List.foldl_append

theorem Callable.Const.after_eq {f : Callable L} (h : f.Const) (calls : List (List L.Arg)) :
    f.after calls = f := by
  induction calls with
  | nil => rfl
  | cons args calls ih =>
    have hSame : f.called args = f := by rw [Callable.called, h args]
    rw [Callable.after, List.foldl_cons, hSame]
    exact ih

namespace Session

variable {B : Nat} {σ σ' : Session n L}

/-- The arguments, if the step is a direct call of object `k`. -/
def Op.useOf (k : Nat) : Op n L → Option (List L.Arg)
  | .use k' args => if k' = k then some args else none
  | _ => none

/-- A bind leaves the object as it is, or as the move leaves it. -/
theorem bind_object {k : Nat} {o : Overload L} {moved : L.State} {f : Callable L}
    (hObject : σ.objects[k]? = some f) (hBind : σ.bind k o moved = some σ') :
    σ'.objects[k]? = some (if o.forwards then { f with state := moved } else f) := by
  obtain ⟨g, hAt, rfl⟩ := bind_cases hBind
  rw [hObject, Option.some.injEq] at hAt
  subst hAt
  have hLt : k < σ.objects.length := (List.getElem?_eq_some_iff.mp hObject).1
  cases o.forwards with
  | false => exact hObject
  | true => simp [hLt]

/-- **One object, one step.** Unless a bind takes state from it, an object
changes by direct calls alone. -/
theorem object_step {op : Op n L} (hStep : σ.step B op = some σ') {k : Nat} {f : Callable L}
    (hObject : σ.objects[k]? = some f)
    (hKept : ∀ o moved, op = .bind k o moved → o.forwards = true → moved = f.state) :
    σ'.objects[k]? = some (f.after (op.useOf k).toList) := by
  cases step_cases hStep with
  | process op s => exact hObject
  | create g =>
    -- a new object comes after the old ones
    have hLt : k < σ.objects.length := (List.getElem?_eq_some_iff.mp hObject).1
    simpa [List.getElem?_append_left hLt, Op.useOf] using hObject
  | use k' args =>
    by_cases hEq : k' = k
    · subst hEq
      simp [use, Op.useOf, hObject, Callable.after, Callable.called]
    · simpa [use, Op.useOf, hEq, List.getElem?_modify_ne] using hObject
  | bind k' o moved g hAt =>
    by_cases hEq : k' = k
    · subst hEq
      rw [bind_object hObject hStep]
      cases hForwards : o.forwards with
      | false => rfl
      | true =>
        -- a move that leaves the state behind changes nothing
        rw [hKept o moved rfl hForwards]
        rfl
    · -- a bind of another object writes another cell, if any
      cases hForwards : o.forwards with
      | false => exact hObject
      | true => simpa [Op.useOf, List.getElem?_set_ne hEq] using hObject
  -- what runs is a copy
  | call => exact hObject

end Session

-- ---------------------------------------------------------------------------
-- Several pools
-- ---------------------------------------------------------------------------

/-- Pools named by `ι`, the one named `i` with `size i` threads. `targets`
are the `pool_` members of the `callable_t`. -/
structure Program (ι : Type) (size : ι → Nat) (L : Types) where
  pools : (i : ι) → Process (size i) L
  objects : List (Callable L)
  callables : List (CallableT L)
  targets : List ι

namespace Program

variable {ι : Type} [DecidableEq ι] {size : ι → Nat}

/-- The program as pool `i` takes part in it. -/
def session (σ : Program ι size L) (i : ι) : Session (size i) L :=
  ⟨σ.pools i, σ.objects, σ.callables⟩

/-- A step of the program concerns one pool. -/
structure Op (ι : Type) (size : ι → Nat) (L : Types) where
  pool : ι
  op : Session.Op (size pool) L

/-- A `callable_t` calls the pool it was bound to. -/
def targeted (σ : Program ι size L) (i : ι) : Session.Op (size i) L → Bool
  | .call c _ _ _ => σ.targets[c]? = some i
  | _ => true

/-- Pool `i` took the step `op`, which led its session to `s`. -/
def took (σ : Program ι size L) (i : ι) (op : Session.Op (size i) L)
    (s : Session (size i) L) : Program ι size L where
  pools := Function.update σ.pools i s.process
  objects := s.objects
  callables := s.callables
  targets :=
    match op with
    | .bind _ _ _ => σ.targets ++ [i]
    | _ => σ.targets

def step (B : Nat) (σ : Program ι size L) (a : Op ι size L) : Option (Program ι size L) :=
  if σ.targeted a.pool a.op then
    ((σ.session a.pool).step B a.op).map (σ.took a.pool a.op)
  else none

/-- Pools of the same type, with `BULK_MAX_ITEMS = B`. -/
def system (size : ι → Nat) (B : Nat) (L : Types) :
    System (Program ι size L) (Op ι size L) where
  init := ⟨fun i => (Process.system (size i) B L).init, [], [], []⟩
  step := step B

variable {B : Nat} {σ σ' : Program ι size L} {a : Op ι size L}

theorem step_cases (h : (system size B L).step σ a = some σ') :
    ∃ s, (σ.session a.pool).step B a.op = some s ∧ σ' = σ.took a.pool a.op s := by
  obtain ⟨-, hStep⟩ := Option.ite_none_right_eq_some.mp h
  obtain ⟨s, hSession, rfl⟩ := Option.map_eq_some_iff.mp hStep
  exact ⟨s, hSession, rfl⟩

@[simp] theorem session_took (i : ι) (op : Session.Op (size i) L) (s : Session (size i) L) :
    (σ.took i op s).session i = s := by
  simp [session, took]

theorem session_took_of_ne {i j : ι} (hNe : j ≠ i) (op : Session.Op (size i) L)
    (s : Session (size i) L) :
    (σ.took i op s).session j = ⟨σ.pools j, s.objects, s.callables⟩ := by
  simp [session, took, Function.update_of_ne hNe]

/-- **Refinement.** Every pool sees a session: its own steps, and the objects
and `callable_t` that others make. -/
def simulation (size : ι → Nat) (B : Nat) (L : Types) (j : ι) :
    System.Simulation (system size B L) (Session.system (size j) B L) where
  view := fun σ => σ.session j
  init := rfl
  step := by
    rintro σ ⟨i, op⟩ σ' hStep
    obtain ⟨s, hTook, rfl⟩ := step_cases hStep
    have hSession : (σ.session i).step B op = some s := hTook
    by_cases hEq : i = j
    · subst hEq
      rw [session_took]
      exact .single hSession
    rw [session_took_of_ne (Ne.symm hEq)]
    -- a step of another pool is seen if it is one of the caller's
    cases Session.step_cases hSession with
    | process | call => exact .refl _
    | create f => exact .single (a := .create f) rfl
    | use k args => exact .single (a := .use k args) rfl
    | bind k o moved f hAt =>
      have hSame : (σ.session j).bind k o moved = some ⟨σ.pools j,
          if o.forwards then σ.objects.set k { f with state := moved } else σ.objects,
          σ.callables ++ [⟨o.target f⟩]⟩ := by
        have hAt' : (σ.session j).objects[k]? = some f := hAt
        rw [Session.bind, hAt']
        rfl
      exact .single (a := .bind k o moved) hSame

-- ---------------------------------------------------------------------------
-- A sequence of binds and calls
-- ---------------------------------------------------------------------------

/-- The direct calls of object `k`, by their arguments. -/
def uses (k : Nat) (ops : List (Op ι size L)) : List (List L.Arg) :=
  ops.filterMap fun a => a.op.useOf k

omit [DecidableEq ι] in
theorem uses_snoc (k : Nat) (ops : List (Op ι size L)) (a : Op ι size L) :
    uses k (ops ++ [a]) = uses k ops ++ (a.op.useOf k).toList := by
  cases hUse : a.op.useOf k <;> simp [uses, hUse]

/-- From `σ` on, every call of the `callable_t` number `c`, on any pool and
by any thread, whose future is got is resolved with what `out` says. -/
def Computes (B : Nat) (σ : Program ι size L) (c : Nat) (out : List L.Arg → Outcome L) : Prop :=
  ∀ σ₁ σ₂ i φ th args j s, (system size B L).Leads σ σ₁ → σ₁.targets[c]? = some i →
    (σ₁.session i).call φ c th args = some (.returned j, s) →
    (system size B L).Leads (σ₁.took i (.call c th args φ) s) σ₂ →
    ∃ t, (σ₂.pools i).heap[j]? = some t ∧ ∀ o, t.shared = .ready o ↔
      Finished (σ₂.pools i).pool.hist t.task ∧ o = out args

/-- Along the run `ops` from `σ`, no bind has an effect on object `k`, which
is `f` at first: each leaves it as it was, and makes a `callable_t` that owns
and computes, on every argument list, the function that `f` has after the
direct calls so far. -/
def Intact (B : Nat) (σ : Program ι size L) (ops : List (Op ι size L)) (k : Nat)
    (f : Callable L) : Prop :=
  ∀ past σ₁ i o moved σ₂,
    (system size B L).Passes σ ops past σ₁ ⟨i, .bind k o moved⟩ σ₂ →
      σ₂.objects[k]? = σ₁.objects[k]? ∧
        (∃ ct, σ₂.callables[σ₁.callables.length]? = some ct ∧
          ∀ args, ct.callable.outcome args = (f.after (uses k past)).outcome args) ∧
        σ₂.targets = σ₁.targets ++ [i] ∧
        Computes B σ₂ σ₁.callables.length (f.after (uses k past)).outcome

/-- No move from object `k` along the run changes its state: nothing is moved
from it, or it is `const`, or its captures are copied by a move. -/
def Kept (B : Nat) (σ : Program ι size L) (ops : List (Op ι size L)) (k : Nat) : Prop :=
  ∀ past σ₁ i o moved σ₂ g,
    (system size B L).Passes σ ops past σ₁ ⟨i, .bind k o moved⟩ σ₂ →
      σ₁.objects[k]? = some g → o.forwards = true → moved = g.state

/-- The parameters that object `k` is bound with along the run make no
difference to it. -/
def Suited (B : Nat) (σ : Program ι size L) (ops : List (Op ι size L)) (k : Nat) : Prop :=
  ∀ past σ₁ i o moved σ₂ g,
    (system size B L).Passes σ ops past σ₁ ⟨i, .bind k o moved⟩ σ₂ →
      σ₁.objects[k]? = some g → ∀ args, (o.target g).outcome args = g.outcome args

/-- Every move from object `k` along the run leaves another state behind. -/
def Destructive (B : Nat) (σ : Program ι size L) (ops : List (Op ι size L)) (k : Nat) : Prop :=
  ∀ past σ₁ i o moved σ₂ g,
    (system size B L).Passes σ ops past σ₁ ⟨i, .bind k o moved⟩ σ₂ →
      σ₁.objects[k]? = some g → o.forwards = true → moved ≠ g.state

variable {ops : List (Op ι size L)} {k : Nat} {f : Callable L}

/-- **One object, one run.** While no move takes state from it, an object is
what its direct calls alone make of it. -/
theorem object_run (hObject : σ.objects[k]? = some f) (hKept : Kept B σ ops k)
    {past rest : List (Op ι size L)} (hSplit : ops = past ++ rest)
    (hRun : (system size B L).run σ past = some σ') :
    σ'.objects[k]? = some (f.after (uses k past)) := by
  induction past using List.reverseRecOn generalizing σ' rest with
  | nil =>
    rw [System.run_nil, Option.some.injEq] at hRun
    exact hRun ▸ hObject
  | append_singleton past a ih =>
    obtain ⟨t, hBefore, hLast⟩ := System.run_append.mp hRun
    obtain ⟨u, hStep, hEnd⟩ := System.run_cons.mp hLast
    rw [System.run_nil, Option.some.injEq] at hEnd
    subst hEnd
    have hSplit' : ops = past ++ ([a] ++ rest) := by rw [hSplit, List.append_assoc]
    have hOld := ih hSplit' hBefore
    -- the last step is a step of the run, so it takes nothing from the object
    obtain ⟨i, op⟩ := a
    obtain ⟨s, hSession, rfl⟩ := step_cases hStep
    have hNew := Session.object_step hSession hOld fun o moved hEq hForwards => by
      dsimp only at hEq
      subst hEq
      exact hKept past t i o moved _ _ ⟨⟨rest, by simp [hSplit]⟩, hBefore, hStep⟩ hOld hForwards
    rw [uses_snoc, Callable.after_append]
    exact hNew

/-- What a bind of the program does. -/
theorem bind_cases {i : ι} {o : Overload L} {moved : L.State} {g : Callable L}
    (hObject : σ.objects[k]? = some g)
    (hStep : (system size B L).step σ ⟨i, .bind k o moved⟩ = some σ') :
    σ'.objects[k]? = some (if o.forwards then { g with state := moved } else g) ∧
      σ'.callables = σ.callables ++ [⟨o.target g⟩] ∧ σ'.targets = σ.targets ++ [i] := by
  obtain ⟨s, hSession, rfl⟩ := step_cases hStep
  refine ⟨Session.bind_object hObject hSession, ?_, rfl⟩
  obtain ⟨g', hAt, rfl⟩ := Session.bind_cases hSession
  have hSame : σ.objects[k]? = some g' := hAt
  rw [hObject, Option.some.injEq] at hSame
  rw [hSame]
  rfl

/-- A `callable_t` computes the function it owns. -/
theorem computes_of_callable (h : (system size B L).Reachable σ) {c : Nat}
    (hTarget : σ.callables[c]? = some ⟨f⟩) : Computes B σ c f.outcome := by
  intro σ₁ σ₂ i φ th args j s hBefore _ hCall hLater
  have hSession := (simulation size B L i).reachable (h.leads hBefore)
  -- nothing has changed the `callable_t` until it is called
  have hSame : (σ₁.session i).callables[c]? = some ⟨f⟩ :=
    Session.callable_of_leads (σ := σ.session i) hTarget ((simulation size B L i).leads hBefore)
  have hAfter := (simulation size B L i).leads hLater
  rw [show (simulation size B L i).view (σ₁.took i (.call c th args φ) s) = s from
    session_took ..] at hAfter
  exact Session.call_future hSession hSame hCall hAfter

/-- While no move takes state from it and the parameters suit it, every bind
is without effect. -/
theorem intact_of_kept (h : (system size B L).Reachable σ) (hObject : σ.objects[k]? = some f)
    (hKept : Kept B σ ops k) (hSuited : Suited B σ ops k) : Intact B σ ops k f := by
  intro past σ₁ i o moved σ₂ hPasses
  obtain ⟨rest, hSplit⟩ := hPasses.split
  have hAt := object_run hObject hKept hSplit hPasses.before
  -- the bind finds `f` after its direct calls, and copies or takes that
  obtain ⟨hObject', hCallables, hTargets⟩ := bind_cases hAt hPasses.step
  have hMade : σ₂.callables[σ₁.callables.length]? = some ⟨o.target (f.after (uses k past))⟩ := by
    simp [hCallables]
  have hSame := hSuited past σ₁ i o moved σ₂ _ hPasses hAt
  refine ⟨?_, ⟨_, hMade, hSame⟩, hTargets, ?_⟩
  · rw [hObject', hAt]
    cases hForwards : o.forwards with
    | false => rfl
    | true =>
      rw [hKept past σ₁ i o moved σ₂ _ hPasses hAt hForwards]
      rfl
  · have hOutcome : (f.after (uses k past)).outcome = (o.target (f.after (uses k past))).outcome :=
      funext fun args => (hSame args).symm
    rw [hOutcome]
    exact computes_of_callable ((h.leads hPasses.leads).step hPasses.step) hMade

/-- A bind that leaves the object as it was has taken no state from it. -/
theorem kept_of_intact (hIntact : Intact B σ ops k f) : Kept B σ ops k := by
  intro past σ₁ i o moved σ₂ g hPasses hAt hForwards
  have hSame := (hIntact past σ₁ i o moved σ₂ hPasses).1
  rw [(bind_cases hAt hPasses.step).1, hAt, hForwards] at hSame
  exact congrArg Callable.state (Option.some.inj hSame)

/-- A `callable_t` that computes the function of the object has parameters
that suit it. -/
theorem suited_of_intact (hObject : σ.objects[k]? = some f) (hIntact : Intact B σ ops k f) :
    Suited B σ ops k := by
  intro past σ₁ i o moved σ₂ g hPasses hAt args
  obtain ⟨rest, hSplit⟩ := hPasses.split
  have hNow := object_run hObject (kept_of_intact hIntact) hSplit hPasses.before
  rw [hAt, Option.some.injEq] at hNow
  obtain ⟨-, ⟨ct, hMade, hSame⟩, -⟩ := hIntact past σ₁ i o moved σ₂ hPasses
  rw [(bind_cases hAt hPasses.step).2.1, List.getElem?_concat_length, Option.some.injEq] at hMade
  subst hMade
  rw [← hNow] at hSame
  exact hSame args

end Program

/-- **Binding an object.** Take any run of a program with any number of
pools, and an object `f` of the caller. All binds of it along the run are
without effect on it, and make `callable_t` that compute its function, if and
only if no move takes state from it and the parameters it is bound with make
no difference to it. If the object is always bound as an lvalue and a move
leaves another state behind, this means that no bind goes through the overload
`L& lambda`. The function a bind finds is that of `f` itself if direct calls
keep its state. -/
theorem bind_intact {ι : Type} [DecidableEq ι] {size : ι → Nat} {B : Nat} {L : Types}
    {σ σ' : Program ι size L} (h : (Program.system size B L).Reachable σ)
    {ops : List (Program.Op ι size L)} (hRun : (Program.system size B L).run σ ops = some σ')
    {k : Nat} {f : Callable L} (hObject : σ.objects[k]? = some f) :
    (Program.Intact B σ ops k f ↔ Program.Kept B σ ops k ∧ Program.Suited B σ ops k) ∧
      ((∀ i ps moved, ⟨i, .bind k (.movable ps) moved⟩ ∉ ops) → Program.Destructive B σ ops k →
        (Program.Intact B σ ops k f ↔ ∀ i ps moved, ⟨i, .bind k (.reference ps) moved⟩ ∉ ops)) ∧
      (f.Const → ∀ calls, f.after calls = f) := by
  have hIff : Program.Intact B σ ops k f ↔ Program.Kept B σ ops k ∧ Program.Suited B σ ops k :=
    ⟨fun hIntact => ⟨Program.kept_of_intact hIntact, Program.suited_of_intact hObject hIntact⟩,
      fun ⟨hKept, hSuited⟩ => Program.intact_of_kept h hObject hKept hSuited⟩
  refine ⟨hIff, fun hLvalue hDestructive => ?_, fun hConst => hConst.after_eq⟩
  rw [hIff]
  constructor
  · -- the run passes every bind it contains, and finds the object there
    rintro ⟨hKept, -⟩ i ps moved hMem
    obtain ⟨past, t, u, hPasses⟩ := System.exists_passes hRun hMem
    obtain ⟨rest, hSplit⟩ := hPasses.split
    have hAt := Program.object_run hObject hKept hSplit hPasses.before
    exact hDestructive past t i (.reference ps) moved u _ hPasses hAt rfl
      (hKept past t i (.reference ps) moved u _ hPasses hAt rfl)
  · intro hNone
    -- the overloads that forward and convert are the two for functors and lambdas
    constructor
    · intro past t i o moved u g hPasses _ hForwards
      cases o with
      | pointer | function => cases hForwards
      | movable ps => exact absurd hPasses.mem (hLvalue i ps moved)
      | reference ps => exact absurd hPasses.mem (hNone i ps moved)
    · intro past t i o moved u g hPasses _ args
      cases o with
      | pointer | function => rfl
      | movable ps => exact absurd hPasses.mem (hLvalue i ps moved)
      | reference ps => exact absurd hPasses.mem (hNone i ps moved)

/-- Two pools and an object with the state 5. -/
def twoPools : Program Bool (fun _ => 1) Process.natTypes :=
  ((Program.system (fun _ => 1) 1 Process.natTypes).run
    (Program.system (fun _ => 1) 1 Process.natTypes).init
    ((Process.construct 1).map (fun op => ⟨false, .process op⟩) ++
      (Process.construct 1).map (fun op => ⟨true, .process op⟩) ++
      [⟨false, .create (Process.adder 5)⟩])).get rfl

/-- The object, a `std::function`, is bound to both pools and called between. -/
def copiedTwice : List (Program.Op Bool (fun _ => 1) Process.natTypes) :=
  [⟨false, .bind 0 .function 0⟩, ⟨false, .use 0 [9]⟩, ⟨true, .bind 0 .function 0⟩]

theorem bind_intact_copiedTwice :
    Program.Intact 1 twoPools copiedTwice 0 (Process.adder 5) := by
  have hReach : (Program.system (fun _ => 1) 1 Process.natTypes).Reachable twoPools :=
    System.Reachable.get _ rfl
  have hRun : (Program.system (fun _ => 1) 1 Process.natTypes).run twoPools copiedTwice =
      some (((Program.system (fun _ => 1) 1 Process.natTypes).run twoPools copiedTwice).get rfl) :=
    rfl
  -- both binds go through the overload for `std::function`, which copies
  have hOverload : ∀ i o moved, ⟨i, .bind 0 o moved⟩ ∈ copiedTwice → o = .function := by
    intro i o moved hMem
    simp only [copiedTwice, List.mem_cons, Program.Op.mk.injEq, List.not_mem_nil, or_false] at hMem
    rcases hMem with ⟨rfl, hOp⟩ | ⟨rfl, hOp⟩ | ⟨rfl, hOp⟩ <;> cases hOp <;> rfl
  refine ((bind_intact hReach hRun rfl).2.1 (fun i ps moved hMem => ?_)
    (fun _ _ i o moved _ _ hPasses _ hForwards => ?_)).mpr (fun i ps moved hMem => ?_)
  · cases hOverload i (.movable ps) moved hMem
  · cases hOverload i o moved hPasses.mem
    cases hForwards
  · cases hOverload i (.reference ps) moved hMem

/-- The parameters of a call operator that takes any arguments. -/
def anyParams : Params Process.natTypes := ⟨.ok, fun _ => rfl⟩

/-- The object, a lambda, is bound to both pools. -/
def movedTwice : List (Program.Op Bool (fun _ => 1) Process.natTypes) :=
  [⟨false, .bind 0 (.reference anyParams) 0⟩, ⟨true, .bind 0 (.reference anyParams) 0⟩]

/-- The first bind takes the state, so the second `callable_t` computes
another function. -/
theorem movedTwice_differs :
    ¬ Program.Intact 1 twoPools movedTwice 0 (Process.adder 5) ∧
      ((Program.system (fun _ => 1) 1 Process.natTypes).run twoPools movedTwice).map
        (fun σ => σ.callables.map fun c => c.callable.outcome [1]) =
          some [.value 6, .value 1] := by
  refine ⟨fun hIntact => ?_, rfl⟩
  have hStep : (Program.system (fun _ => 1) 1 Process.natTypes).step twoPools
      ⟨false, .bind 0 (.reference anyParams) 0⟩ = some (((Program.system (fun _ => 1) 1
        Process.natTypes).step twoPools ⟨false, .bind 0 (.reference anyParams) 0⟩).get rfl) := rfl
  have hSame := (hIntact [] twoPools false (.reference anyParams) 0 _ ⟨⟨_, rfl⟩, rfl, hStep⟩).1
  have hState : (0 : Nat) = 5 := congrArg Callable.state (Option.some.inj hSame)
  exact absurd hState (by decide)

end ThreadPool.Model
