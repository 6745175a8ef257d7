import Mathlib.Data.List.Basic

/-!
# Labelled transition systems

A system is an initial state and a partial step function: a label that is
not enabled in a state has no successor. Runs are finite label sequences.
Nothing here names a particular program.

* `Reachable.induction` — a property that holds initially and is kept by
  every step taken from a reachable state holds of every reachable state;
* `Leads.induction` — the same for the continuations of a given state;
* `run_measure` — how many steps of one kind a run can take;
* `Passes` — a run and one of its steps;
* `restrict` — the system that keeps only the steps a guard admits; its
  runs are runs of the original system;
* `Simulation` — a step of one system is a run of another under a state
  map, so reachability and continuations transfer.
-/

namespace ThreadPool.Lib

/-- A transition system over states `S` with labels `A`. -/
structure System (S A : Type) where
  init : S
  step : S → A → Option S

namespace System

variable {S A T B : Type} {M : System S A} {N : System T B}

/-- Run a label sequence; `none` as soon as a label is not enabled. -/
def run (M : System S A) : S → List A → Option S
  | s, [] => some s
  | s, a :: as => (M.step s a).bind fun s' => M.run s' as

/-- `s'` is the state after some continuation of `s`. -/
def Leads (M : System S A) (s s' : S) : Prop := ∃ as, M.run s as = some s'

/-- `s` is the state after some run from the initial state. -/
def Reachable (M : System S A) (s : S) : Prop := M.Leads M.init s

-- ---------------------------------------------------------------------------
-- Runs
-- ---------------------------------------------------------------------------

@[simp] theorem run_nil (s : S) : M.run s [] = some s := rfl

theorem run_cons {s s' : S} {a : A} {as : List A} :
    M.run s (a :: as) = some s' ↔ ∃ t, M.step s a = some t ∧ M.run t as = some s' := by
  rw [run, Option.bind_eq_some_iff]

theorem run_append {s s' : S} {as bs : List A} :
    M.run s (as ++ bs) = some s' ↔ ∃ t, M.run s as = some t ∧ M.run t bs = some s' := by
  induction as generalizing s with
  | nil => simp
  | cons a as ih =>
    rw [List.cons_append, run_cons]
    constructor
    · rintro ⟨t, hStep, hRun⟩
      obtain ⟨u, hu, hRest⟩ := ih.mp hRun
      exact ⟨u, run_cons.mpr ⟨t, hStep, hu⟩, hRest⟩
    · rintro ⟨u, hRun, hRest⟩
      obtain ⟨t, hStep, hu⟩ := run_cons.mp hRun
      exact ⟨t, hStep, ih.mpr ⟨u, hu, hRest⟩⟩

theorem Leads.refl (s : S) : M.Leads s s := ⟨[], rfl⟩

theorem Leads.trans {s t u : S} (h₁ : M.Leads s t) (h₂ : M.Leads t u) : M.Leads s u := by
  obtain ⟨as, has⟩ := h₁
  obtain ⟨bs, hbs⟩ := h₂
  exact ⟨as ++ bs, run_append.mpr ⟨t, has, hbs⟩⟩

theorem Leads.single {s t : S} {a : A} (h : M.step s a = some t) : M.Leads s t :=
  ⟨[a], run_cons.mpr ⟨t, h, rfl⟩⟩

theorem Leads.tail {s t u : S} {a : A} (h : M.Leads s t) (hStep : M.step t a = some u) :
    M.Leads s u :=
  h.trans (.single hStep)

theorem Reachable.init : M.Reachable M.init := Leads.refl _

theorem Reachable.step {s t : S} {a : A} (h : M.Reachable s) (hStep : M.step s a = some t) :
    M.Reachable t :=
  Leads.tail h hStep

theorem Reachable.leads {s t : S} (h : M.Reachable s) (hLeads : M.Leads s t) : M.Reachable t :=
  Leads.trans h hLeads

/-- The state after an executable run. -/
theorem Leads.get (s : S) (as : List A) (h : (M.run s as).isSome = true) :
    M.Leads s ((M.run s as).get h) :=
  ⟨as, (Option.some_get h).symm⟩

theorem Reachable.get (as : List A) (h : (M.run M.init as).isSome = true) :
    M.Reachable ((M.run M.init as).get h) :=
  Leads.get M.init as h

-- ---------------------------------------------------------------------------
-- The steps of a run
-- ---------------------------------------------------------------------------

/-- The run `as` from `s` takes the step `a` from `t` to `u`, after `past`. -/
structure Passes (M : System S A) (s : S) (as past : List A) (t : S) (a : A) (u : S) : Prop where
  split : ∃ rest, as = past ++ a :: rest
  before : M.run s past = some t
  step : M.step t a = some u

theorem Passes.mem {s t u : S} {as past : List A} {a : A} (h : M.Passes s as past t a u) :
    a ∈ as := by
  obtain ⟨rest, rfl⟩ := h.split
  exact List.mem_append_right _ List.mem_cons_self

/-- The state before a step of a run continues the start of the run. -/
theorem Passes.leads {s t u : S} {as past : List A} {a : A} (h : M.Passes s as past t a u) :
    M.Leads s t :=
  ⟨past, h.before⟩

/-- A run takes each of its labels. -/
theorem exists_passes {s s' : S} {as : List A} (hRun : M.run s as = some s') {a : A}
    (ha : a ∈ as) : ∃ past t u, M.Passes s as past t a u := by
  obtain ⟨past, rest, rfl⟩ := List.append_of_mem ha
  obtain ⟨t, hBefore, hAfter⟩ := run_append.mp hRun
  obtain ⟨u, hStep, -⟩ := run_cons.mp hAfter
  exact ⟨past, t, u, ⟨rest, rfl⟩, hBefore, hStep⟩

-- ---------------------------------------------------------------------------
-- Induction over runs
-- ---------------------------------------------------------------------------

/-- What every step of a continuation of `s` keeps holds after the
continuation. The step may use that it starts in a continuation of `s`. -/
theorem Leads.induction {s : S} {P : S → Prop} (hStart : P s)
    (hStep : ∀ t a u, M.Leads s t → P t → M.step t a = some u → P u)
    {s' : S} (h : M.Leads s s') : P s' := by
  obtain ⟨as, hRun⟩ := h
  -- generalize the start of the remaining run to any state the run has passed
  suffices hGen : ∀ as t, M.Leads s t → P t → M.run t as = some s' → P s' from
    hGen as s (.refl s) hStart hRun
  intro as
  induction as with
  | nil =>
    intro t _ hP hRun
    rw [run_nil, Option.some.injEq] at hRun
    exact hRun ▸ hP
  | cons a as ih =>
    intro t hLeads hP hRun
    obtain ⟨u, hOne, hRest⟩ := run_cons.mp hRun
    exact ih u (hLeads.tail hOne) (hStep t a u hLeads hP hOne) hRest

/-- The invariant rule. -/
theorem Reachable.induction {P : S → Prop} (hInit : P M.init)
    (hStep : ∀ s a t, M.Reachable s → P s → M.step s a = some t → P t)
    {s : S} (h : M.Reachable s) : P s :=
  Leads.induction hInit hStep h

/-- The measure rule: a run takes no more of the steps that make `μ` smaller
than `μ` allows, if the others do not make it larger. -/
theorem run_measure {p : A → Bool} {I : S → Prop} {μ : S → Nat} {s s' : S} {as : List A}
    (hRun : M.run s as = some s') (hStart : I s)
    (hStep : ∀ t a u, I t → a ∈ as → M.step t a = some u →
      I u ∧ μ u + (if p a then 1 else 0) ≤ μ t) :
    I s' ∧ as.countP p + μ s' ≤ μ s := by
  induction as generalizing s with
  | nil =>
    cases hRun
    exact ⟨hStart, Nat.le_of_eq (Nat.zero_add _)⟩
  | cons a as ih =>
    obtain ⟨t, hFirst, hRest⟩ := run_cons.mp hRun
    obtain ⟨hI, hLess⟩ := hStep s a t hStart List.mem_cons_self hFirst
    obtain ⟨hEnd, hCount⟩ := ih hRest hI fun t b u hIt hb => hStep t b u hIt
      (List.mem_cons_of_mem a hb)
    refine ⟨hEnd, ?_⟩
    rw [List.countP_cons]
    omega

-- ---------------------------------------------------------------------------
-- Guarded systems
-- ---------------------------------------------------------------------------

/-- The steps of `M` that the guard `g` admits. -/
def restrict (M : System S A) (g : S → A → Bool) : System S A where
  init := M.init
  step s a := if g s a then M.step s a else none

theorem restrict_step {g : S → A → Bool} {s t : S} {a : A} :
    (M.restrict g).step s a = some t ↔ g s a = true ∧ M.step s a = some t := by
  simp [restrict]

theorem Leads.of_restrict {g : S → A → Bool} {s t : S} (h : (M.restrict g).Leads s t) :
    M.Leads s t :=
  Leads.induction (.refl s)
    (fun _ _ _ _ hM hStep => hM.tail (restrict_step.mp hStep).2) h

theorem Reachable.of_restrict {g : S → A → Bool} {s : S} (h : (M.restrict g).Reachable s) :
    M.Reachable s :=
  Leads.of_restrict h

-- ---------------------------------------------------------------------------
-- Simulation
-- ---------------------------------------------------------------------------

/-- A step of `M` is matched by a run of `N`, states being read through
`view`. A step the abstract system does not see is matched by the empty run. -/
structure Simulation (M : System S A) (N : System T B) where
  view : S → T
  init : view M.init = N.init
  step : ∀ {s a t}, M.step s a = some t → N.Leads (view s) (view t)

theorem Simulation.leads (σ : Simulation M N) {s t : S} (h : M.Leads s t) :
    N.Leads (σ.view s) (σ.view t) :=
  Leads.induction (P := fun u => N.Leads (σ.view s) (σ.view u)) (.refl _)
    (fun _ _ _ _ hN hStep => hN.trans (σ.step hStep)) h

theorem Simulation.reachable (σ : Simulation M N) {s : S} (h : M.Reachable s) :
    N.Reachable (σ.view s) := by
  have hLeads := σ.leads h
  rwa [σ.init] at hLeads

end System

end ThreadPool.Lib
