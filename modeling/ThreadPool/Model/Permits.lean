import ThreadPool.Model.Semaphore

/-!
# ThreadPool — permits

Threads that share one `LightweightSemaphore`, each in at most one call, in
any interleaving of the steps of `Model/Semaphore.lean` in which the permits
that are signalled fit into the counter (`inRange`).

* `permits_accounted` — the permits handed out, held and under way add up to
  what was there and what was signalled, so the counter never overflows; a
  call gets no more than it asked for;
* `waiting_callers_accounted` — a negative counter and the wake-ups under way
  add up to the waiting callers, so a caller is never left asleep next to a
  permit;
* `quiet_exact` — between calls the kernel semaphore is empty and the counter
  is exact, whatever timed out on the way;
* `call_completes` — a call that is not an indefinite wait can always be
  brought to its end.
-/

namespace ThreadPool.Model

open ThreadPool.Lib

namespace LightweightSemaphore

-- ---------------------------------------------------------------------------
-- The system
-- ---------------------------------------------------------------------------

inductive Call
  | tryWaitMany (max : Nat)
  | waitMany (max : Nat) (timeout : Wait)
  | signal (count : Nat)
  deriving DecidableEq

def Call.start : Call → Pc
  | .tryWaitMany max => LightweightSemaphore.tryWaitMany max
  | .waitMany max timeout => LightweightSemaphore.waitMany max timeout
  | .signal count => LightweightSemaphore.signal count

/-- The permits a call asks for. -/
def Call.max : Call → Nat
  | .tryWaitMany max => max
  | .waitMany max _ => max
  | .signal _ => 0

/-- The permits a call brings. -/
def Call.count : Call → Nat
  | .signal count => count
  | _ => 0

/-- What a call that has come to its end returns; `signal` returns nothing. -/
def Pc.result : Pc → Option Nat
  | .acquired k => some k
  | .signalled => some 0
  | _ => none

/-- A semaphore and the `T` threads that use it. `returned` is history. -/
structure Crowd (T : Nat) where
  sema : LightweightSemaphore
  calls : Fin T → Option (Call × Pc)
  returned : List (Call × Nat)

inductive Label (T : Nat)
  | call (i : Fin T) (op : Call)
  | step (i : Fin T) (c : Choice)
  | ret (i : Fin T)

/-- The permits a step brings: those of the call it makes. -/
def Label.count {T : Nat} : Label T → Nat
  | .call _ op => op.count
  | _ => 0

namespace Crowd

variable {T : Nat}

def step (p : Platform) (maxSpins : Nat) (s : Crowd T) : Label T → Option (Crowd T)
  | .call i op =>
    match s.calls i with
    | none => some { s with calls := Function.update s.calls i (some (op, op.start)) }
    | some _ => none
  | .step i c =>
    match s.calls i with
    | some (op, pc) =>
      (s.sema.step p maxSpins pc c).map fun r =>
        { s with sema := r.1, calls := Function.update s.calls i (some (op, r.2)) }
    | none => none
  | .ret i =>
    match s.calls i with
    | some (op, pc) =>
      pc.result.map fun k =>
        { s with
          calls := Function.update s.calls i none
          returned := s.returned ++ [(op, k)] }
    | none => none

/-- `LightweightSemaphore(initialCount, maxSpins)` and threads outside any
call. -/
def system (p : Platform) (maxSpins initialCount T : Nat) : System (Crowd T) (Label T) where
  init := ⟨⟨initialCount, 0⟩, fun _ => none, []⟩
  step := step p maxSpins

/-- What the calls in progress count for together. -/
def sum (s : Crowd T) (f : Call × Pc → Nat) : Nat := tally (ifSome f) s.calls

/-- The permits that calls of `signal` were made with, returned or not. -/
def signalled (s : Crowd T) : Nat :=
  total (fun r => r.1.count) s.returned + s.sum fun x => x.1.count

/-- The largest `ssize_t` and the largest `int`. -/
def ssizeMax : Nat := 9223372036854775807
def intMax : Nat := 2147483647

/-- A call is made while the counter has room for its permits, by one of so
few threads that `(int)toRelease` loses nothing. -/
def inRange (initialCount : Nat) (s : Crowd T) : Label T → Bool
  | .call _ op => decide (T ≤ intMax ∧ initialCount + s.signalled + op.count ≤ ssizeMax)
  | _ => true

/-- The runs in which the permits fit into the counter. -/
def boundedSystem (p : Platform) (maxSpins initialCount T : Nat) :
    System (Crowd T) (Label T) :=
  (system p maxSpins initialCount T).restrict (inRange initialCount)

/-- Every way a step can go. -/
inductive Move (p : Platform) (maxSpins : Nat) (s : Crowd T) : Label T → Crowd T → Prop
  | call (i : Fin T) (op : Call) (hIdle : s.calls i = none) :
      Move p maxSpins s (.call i op)
        { s with calls := Function.update s.calls i (some (op, op.start)) }
  | step (i : Fin T) (c : Choice) (op : Call) (pc pc' : Pc) (sema : LightweightSemaphore)
      (hCall : s.calls i = some (op, pc)) (hStep : s.sema.Step p maxSpins pc c sema pc') :
      Move p maxSpins s (.step i c)
        { s with sema := sema, calls := Function.update s.calls i (some (op, pc')) }
  | ret (i : Fin T) (op : Call) (pc : Pc) (k : Nat) (hCall : s.calls i = some (op, pc))
      (hResult : pc.result = some k) :
      Move p maxSpins s (.ret i)
        { s with
          calls := Function.update s.calls i none
          returned := s.returned ++ [(op, k)] }

variable {p : Platform} {maxSpins initialCount : Nat} {s s' : Crowd T} {l : Label T}

theorem step_cases (h : s.step p maxSpins l = some s') : Move p maxSpins s l s' := by
  cases l with
  | call i op =>
    simp only [step] at h
    split at h
    · next hIdle => cases h; exact .call i op hIdle
    · cases h
  | step i c =>
    simp only [step] at h
    split at h
    · next op pc hCall =>
      obtain ⟨⟨sema, pc'⟩, hStep, rfl⟩ := Option.map_eq_some_iff.mp h
      exact .step i c op pc pc' sema hCall (LightweightSemaphore.step_cases hStep)
    · cases h
  | ret i =>
    simp only [step] at h
    split at h
    · next op pc hCall =>
      obtain ⟨k, hResult, rfl⟩ := Option.map_eq_some_iff.mp h
      exact .ret i op pc k hCall hResult
    · cases h

-- ---------------------------------------------------------------------------
-- What the threads hold together
-- ---------------------------------------------------------------------------

/-- The permits a call has got, has to post and has to add. -/
def owned (x : Call × Pc) : Nat := x.2.granted + x.2.posts + x.2.unsent

/-- One call moves on. -/
theorem sum_update (f : Call × Pc → Nat) (i : Fin T) (x : Option (Call × Pc)) :
    tally (ifSome f) (Function.update s.calls i x) + ifSome f (s.calls i) =
      s.sum f + ifSome f x :=
  tally_update (ifSome f) s.calls i x

/-- The permits of the calls in progress. -/
def granted (s : Crowd T) : Nat := s.sum fun x => x.2.granted

/-- The wake-ups the calls in progress have still to make. -/
def posts (s : Crowd T) : Nat := s.sum fun x => x.2.posts

/-- The permits the calls in progress have still to add to the counter. -/
def unsent (s : Crowd T) : Nat := s.sum fun x => x.2.unsent

/-- The callers that wait. -/
def waits (s : Crowd T) : Nat := s.sum fun x => x.2.waits

/-- The permits that calls have returned. -/
def acquired (s : Crowd T) : Nat := total Prod.snd s.returned

theorem permits_eq (s : Crowd T) :
    s.acquired + s.granted + s.sema.held + s.posts + s.unsent =
      s.acquired + s.sum owned + s.sema.held := by
  have hOwned : s.sum owned = s.granted + s.posts + s.unsent := by
    unfold granted posts unsent sum
    rw [← tally_add, ← tally_add]
    exact tally_congr fun i => by cases s.calls i <;> rfl
  omega

-- ---------------------------------------------------------------------------
-- The invariant
-- ---------------------------------------------------------------------------

/-- A call is at a place of its own function, and what it has and still asks
for is no more than its caller asked for. -/
def Fits : Call → Pc → Prop
  | .tryWaitMany m, .trying .only max _ => max = m
  | .tryWaitMany m, .acquired k => k ≤ m
  | .waitMany m t, .trying (.first timeout) max _ => max = m ∧ timeout = t
  | .waitMany m _, .trying .more max _ => max + 1 = m
  | .waitMany m t, .spinning timeout max _ _ => max = m ∧ timeout = t ∧ 0 < m
  | .waitMany m t, .sleeping timeout max => max = m ∧ timeout = t ∧ 0 < m
  | .waitMany m _, .adjusting max _ => max = m ∧ 0 < m
  | .waitMany m _, .acquired k => k ≤ m
  | .signal c, .signalling count => count = c
  | .signal _, .posting _ => True
  | .signal _, .signalled => True
  | _, _ => False

theorem fits_start (op : Call) : Fits op op.start := by
  cases op with
  | tryWaitMany max => exact rfl
  | waitMany max timeout => exact ⟨rfl, rfl⟩
  | signal count => exact rfl

theorem fits_afterTry {op : Call} {place : Place} {max k : Nat} {oldCount : Option Int}
    (hFits : Fits op (.trying place max oldCount)) (hLe : k ≤ max) :
    Fits op (afterTry maxSpins place max k) := by
  cases op with
  | signal c => exact hFits.elim
  | tryWaitMany m =>
    cases place with
    | only =>
      have hMax : max = m := hFits
      show k ≤ m
      omega
    | first timeout => exact hFits.elim
    | more => exact hFits.elim
  | waitMany m t =>
    cases place with
    | only => exact hFits.elim
    | first timeout =>
      obtain ⟨rfl, rfl⟩ : max = m ∧ timeout = t := hFits
      simp only [afterTry]
      split
      · next hZero => exact ⟨rfl, rfl, hZero.2⟩
      · exact hLe
    | more =>
      have hMax : max + 1 = m := hFits
      show 1 + k ≤ m
      omega

theorem fits_afterOne {m : Nat} {t : Wait} (hPos : 0 < m) : Fits (.waitMany m t) (afterOne m) := by
  unfold afterOne
  split
  · show m - 1 + 1 = m
    omega
  · exact hPos

theorem Fits.step {op : Call} {pc pc' : Pc} {c : Choice} {sema sema' : LightweightSemaphore}
    (hFits : Fits op pc) (hStep : sema.Step p maxSpins pc c sema' pc') : Fits op pc' := by
  cases hStep with
  | load place max | reload place max =>
    cases op <;> cases place <;> exact hFits
  | take place max hPos => exact fits_afterTry hFits (taken_add _ _ hPos).2.2
  | none place max oldCount => exact fits_afterTry hFits (Nat.zero_le _)
  | enter timeout max oldCount =>
    cases op with
    | waitMany m t =>
      obtain ⟨rfl, rfl, hPos⟩ : max = m ∧ timeout = t ∧ 0 < m := hFits
      split
      · exact ⟨rfl, hPos⟩
      · exact ⟨rfl, rfl, hPos⟩
    | tryWaitMany m | signal c => exact hFits.elim
  | last timeout max oldCount =>
    cases op with
    | waitMany m t =>
      obtain ⟨rfl, rfl, hPos⟩ : max = m ∧ timeout = t ∧ 0 < m := hFits
      exact fits_afterOne hPos
    | tryWaitMany m | signal c => exact hFits.elim
  | spinTake timeout max spin hPos =>
    cases op with
    | waitMany m t =>
      obtain ⟨rfl, rfl, -⟩ : max = m ∧ timeout = t ∧ 0 < m := hFits
      exact (taken_add _ _ hPos).2.2
    | tryWaitMany m | signal c => exact hFits.elim
  | wake timeout max =>
    cases op with
    | waitMany m t =>
      obtain ⟨rfl, rfl, hPos⟩ : max = m ∧ timeout = t ∧ 0 < m := hFits
      exact fits_afterOne hPos
    | tryWaitMany m | signal c => exact hFits.elim
  | timeout timeout max =>
    cases op with
    | waitMany m t => exact ⟨hFits.1, hFits.2.2⟩
    | tryWaitMany m | signal c => exact hFits.elim
  | tryWake max =>
    cases op with
    | waitMany m t =>
      obtain ⟨rfl, hPos⟩ : max = m ∧ 0 < m := hFits
      exact fits_afterOne hPos
    | tryWaitMany m | signal c => exact hFits.elim
  | giveUp max =>
    cases op with
    | waitMany m t => exact Nat.zero_le m
    | tryWaitMany m | signal c => exact hFits.elim
  | spin | again | look | readjust =>
    cases op with
    | waitMany m t => exact hFits
    | tryWaitMany m | signal c => exact hFits.elim
  | add | addOnly | post | posted =>
    cases op with
    | signal c => trivial
    | tryWaitMany m | waitMany m t => exact hFits.elim

theorem Fits.waitMany {m : Nat} {t : Wait} {pc : Pc} (hFits : Fits (.waitMany m t) pc) :
    pc.posts = 0 ∧ pc.unsent = 0 := by
  cases pc with
  | signalling count | posting left => exact hFits.elim
  | _ => exact ⟨rfl, rfl⟩

theorem Fits.signal {count : Nat} {pc : Pc} (hFits : Fits (.signal count) pc) :
    pc.granted = 0 ∧ pc.waits = 0 := by
  cases pc with
  | signalling | posting | signalled => exact ⟨rfl, rfl⟩
  | _ => exact hFits.elim

/-- A call that returns has what it has counted, and nothing left to do. -/
theorem Fits.result {op : Call} {pc : Pc} {k : Nat} (hFits : Fits op pc)
    (hResult : pc.result = some k) :
    pc.granted = k ∧ pc.posts = 0 ∧ pc.unsent = 0 ∧ pc.waits = 0 ∧ k ≤ op.max := by
  cases pc with
  | acquired j =>
    cases hResult
    refine ⟨rfl, rfl, rfl, rfl, ?_⟩
    cases op with
    | tryWaitMany m | waitMany m t => exact hFits
    | signal c => exact hFits.elim
  | signalled =>
    cases hResult
    exact ⟨rfl, rfl, rfl, rfl, Nat.zero_le _⟩
  | _ => cases hResult

/-- A call starts with what it brings and nothing else. -/
theorem start_counts (op : Call) :
    op.start.granted = 0 ∧ op.start.posts = 0 ∧ op.start.unsent = op.count ∧
      op.start.waits = 0 := by
  cases op <;> exact ⟨rfl, rfl, rfl, rfl⟩

structure Accounted (initialCount : Nat) (s : Crowd T) : Prop where
  fits : ∀ {i op pc}, s.calls i = some (op, pc) → Fits op pc
  permits : s.acquired + s.granted + s.sema.held + s.posts + s.unsent =
    initialCount + s.signalled
  waiters : s.sema.debt + s.sema.sema + s.posts = s.waits
  returned : ∀ r ∈ s.returned, r.2 ≤ r.1.max

theorem Accounted.init : Accounted initialCount (system p maxSpins initialCount T).init where
  fits h := by cases h
  permits := by
    have hZero : ∀ f, (system p maxSpins initialCount T).init.sum f = 0 :=
      fun f => tally_eq_zero fun _ => rfl
    simp only [granted, posts, unsent, signalled, hZero]
    simp [system, acquired, held]
  waiters := by
    have hZero : ∀ f, (system p maxSpins initialCount T).init.sum f = 0 :=
      fun f => tally_eq_zero fun _ => rfl
    simp only [posts, waits, hZero]
    simp [system, debt]
  returned r h := by cases h

/-- **One call moves.** The books stay balanced when what the call, the
semaphore and the history gain and lose is balanced. -/
theorem Accounted.update (hAcc : Accounted initialCount s) (i : Fin T)
    (x : Option (Call × Pc)) (sema : LightweightSemaphore) (returned : List (Call × Nat))
    (hFits : ∀ op pc, x = some (op, pc) → Fits op pc)
    (hPermits : total Prod.snd returned + ifSome owned x + sema.held +
        (total (fun r => r.1.count) s.returned + ifSome (fun x => x.1.count) (s.calls i)) =
      s.acquired + ifSome owned (s.calls i) + s.sema.held +
        (total (fun r => r.1.count) returned + ifSome (fun x => x.1.count) x))
    (hWaiters : sema.debt + sema.sema + ifSome (fun x => x.2.posts) x +
        ifSome (fun x => x.2.waits) (s.calls i) =
      s.sema.debt + s.sema.sema + ifSome (fun x => x.2.posts) (s.calls i) +
        ifSome (fun x => x.2.waits) x)
    (hReturned : ∀ r ∈ returned, r.2 ≤ r.1.max) :
    Accounted initialCount
      { sema := sema, calls := Function.update s.calls i x, returned := returned } := by
  have hBefore := hAcc.permits
  have hWaiting := hAcc.waiters
  have hOwned := sum_update (s := s) owned i x
  have hPosts := sum_update (s := s) (fun x => x.2.posts) i x
  have hWaits := sum_update (s := s) (fun x => x.2.waits) i x
  have hCount := sum_update (s := s) (fun x => x.1.count) i x
  refine ⟨?_, ?_, ?_, hReturned⟩
  · intro j op pc hj
    by_cases hEq : j = i
    · subst hEq
      exact hFits op pc ((Function.update_self j x s.calls).symm.trans hj)
    · exact hAcc.fits ((Function.update_of_ne hEq x s.calls).symm.trans hj)
  · rw [permits_eq] at hBefore ⊢
    simp only [acquired, signalled, sum] at *
    omega
  · simp only [posts, waits, sum] at *
    omega

theorem Accounted.step (hAcc : Accounted initialCount s)
    (h : s.step p maxSpins l = some s') : Accounted initialCount s' := by
  cases step_cases h with
  | call i op hIdle =>
    obtain ⟨hGranted, hPosts, hUnsent, hWaits⟩ := start_counts op
    refine hAcc.update i _ _ _ ?_ ?_ ?_ hAcc.returned
    · rintro op' pc ⟨⟩
      exact fits_start op
    · simp only [hIdle, ifSome, owned, hGranted, hPosts, hUnsent, acquired]
      omega
    · simp only [hIdle, ifSome, hPosts, hWaits]
  | step i c op pc pc' sema hCall hStep =>
    have hMoved := hStep.permits
    have hWoken := hStep.waiters
    refine hAcc.update i _ _ _ ?_ ?_ ?_ hAcc.returned
    · rintro op' pc'' ⟨⟩
      exact (hAcc.fits hCall).step hStep
    · simp only [hCall, ifSome, owned, acquired]
      omega
    · simp only [hCall, ifSome]
      omega
  | ret i op pc k hCall hResult =>
    obtain ⟨hK, hPosts, hUnsent, hWaits, hMax⟩ := (hAcc.fits hCall).result hResult
    refine hAcc.update i _ _ _ ?_ ?_ ?_ ?_
    · rintro op' pc' ⟨⟩
    · simp only [hCall, ifSome, owned, hK, hPosts, hUnsent, acquired, total_append, total_cons,
        total_nil]
      omega
    · simp only [hCall, ifSome, hPosts, hWaits]
    · intro r hr
      rcases List.mem_append.mp hr with hOld | hNew
      · exact hAcc.returned r hOld
      · rw [List.mem_singleton.mp hNew]
        exact hMax

theorem Accounted.of_reachable (h : (boundedSystem p maxSpins initialCount T).Reachable s) :
    Accounted initialCount s :=
  System.Reachable.induction (P := Accounted initialCount) .init
    (fun _ _ _ _ hAcc hStep => hAcc.step hStep) h.of_restrict

theorem Move.signalled (hMove : Move p maxSpins s l s') :
    s'.signalled = s.signalled + l.count := by
  cases hMove with
  | call i op hIdle =>
    have hCount := sum_update (s := s) (fun x => x.1.count) i (some (op, op.start))
    simp only [hIdle, ifSome, Nat.add_zero] at hCount
    simp only [Crowd.signalled, sum, Label.count] at hCount ⊢
    omega
  | step i c op pc pc' sema hCall =>
    have hCount := sum_update (s := s) (fun x => x.1.count) i (some (op, pc'))
    simp only [hCall, ifSome] at hCount
    simp only [Crowd.signalled, sum, Label.count] at hCount ⊢
    omega
  | ret i op pc k hCall =>
    have hCount := sum_update (s := s) (fun x => x.1.count) i none
    simp only [hCall, ifSome, Nat.add_zero] at hCount
    simp only [Crowd.signalled, sum, Label.count, total_append, total_cons, total_nil] at hCount ⊢
    omega

/-- The permits fit into the counter, and a call in progress is one of few. -/
structure InRange (initialCount : Nat) (s : Crowd T) : Prop where
  few : ∀ {i x}, s.calls i = some x → T ≤ intMax
  room : initialCount + s.signalled ≤ ssizeMax

theorem InRange.step (hRange : InRange initialCount s)
    (h : (boundedSystem p maxSpins initialCount T).step s l = some s') :
    InRange initialCount s' := by
  obtain ⟨hIn, hStep⟩ := System.restrict_step.mp h
  have hMove := step_cases hStep
  have hSignalled := hMove.signalled
  have hRoom := hRange.room
  cases hMove with
  | call i op hIdle =>
    obtain ⟨hFew, hFits⟩ := of_decide_eq_true hIn
    refine ⟨fun _ => hFew, ?_⟩
    rw [hSignalled, ← Nat.add_assoc]
    exact hFits
  | step i c op pc pc' sema hCall => exact ⟨fun _ => hRange.few hCall, hSignalled ▸ hRoom⟩
  | ret i op pc k hCall => exact ⟨fun _ => hRange.few hCall, hSignalled ▸ hRoom⟩

theorem InRange.of_reachable (hInit : initialCount ≤ ssizeMax)
    (h : (boundedSystem p maxSpins initialCount T).Reachable s) : InRange initialCount s := by
  refine System.Reachable.induction (P := InRange initialCount) ⟨?_, ?_⟩
    (fun _ _ _ _ hRange hStep => hRange.step hStep) h
  · intro i x hCall
    cases hCall
  · have hNone : (boundedSystem p maxSpins initialCount T).init.signalled = 0 :=
      (Nat.zero_add _).trans (tally_eq_zero fun _ => rfl)
    omega

theorem waits_le (s : Crowd T) : s.waits ≤ T := by
  have hOne : ∀ x : Option (Call × Pc), ifSome (fun x => x.2.waits) x ≤ 1 := by
    intro x
    match x with
    | none => exact Nat.zero_le _
    | some (op, pc) => cases pc <;> simp [ifSome, Pc.waits]
  have hCard := tally_le_card (ι := Fin T) (g := s.calls) hOne
  rwa [Fintype.card_fin] at hCard

/-- What one call counts for is part of the sum. -/
theorem le_sum {i : Fin T} {x : Call × Pc} (f : Call × Pc → Nat) (hCall : s.calls i = some x) :
    f x ≤ s.sum f := by
  have hLe := le_tally (ifSome f) s.calls i
  rwa [hCall] at hLe

-- ---------------------------------------------------------------------------
-- Results
-- ---------------------------------------------------------------------------

/-- **Permits are neither lost nor made up.** In every reachable state the
permits that calls have returned, that calls in progress have got, that the
counter and the kernel hold, that are being posted and that `signal` has not
added yet are together those the semaphore started with and those that were
signalled. No call returns more than it asked for. The counter stays a value
of its type. -/
theorem permits_accounted (h : (boundedSystem p maxSpins initialCount T).Reachable s) :
    s.acquired + s.granted + (s.sema.count.toNat + s.sema.sema) + s.posts + s.unsent =
        initialCount + s.signalled ∧
      (∀ r ∈ s.returned, r.2 ≤ r.1.max) ∧
      (initialCount ≤ ssizeMax → -(ssizeMax : Int) ≤ s.sema.count ∧ s.sema.count ≤ ssizeMax) := by
  have hAcc := Accounted.of_reachable h
  have hPermits := hAcc.permits
  have hWaiters := hAcc.waiters
  refine ⟨hPermits, hAcc.returned, fun hInit => ?_⟩
  have hRange := InRange.of_reachable hInit h
  have hRoom := hRange.room
  simp only [debt, held] at hWaiters hPermits
  refine ⟨?_, by omega⟩
  by_cases hNone : s.waits = 0
  · omega
  · -- somebody waits, so a call is in progress
    obtain ⟨i, hi⟩ := exists_of_tally_pos (f := ifSome fun x : Call × Pc => x.2.waits)
      (g := s.calls) (show 0 < s.waits by omega)
    have hFew : T ≤ intMax := by
      cases hCall : s.calls i with
      | none => simp [hCall, ifSome] at hi
      | some x => exact hRange.few hCall
    have hCrowd := s.waits_le
    unfold ssizeMax intMax at *
    omega

/-- **Waiting callers.** The amount by which the counter is negative, the
kernel semaphore and the wake-ups still to be made are together the number of
waiting callers. So `signal` releases at most one wake-up for each thread,
and a caller that waits while no wake-up is under way waits because every
permit is with a caller or on its way into the counter. -/
theorem waiting_callers_accounted (h : (boundedSystem p maxSpins initialCount T).Reachable s) :
    (-s.sema.count).toNat + s.sema.sema + s.posts = s.waits ∧
      (∀ i op left, s.calls i = some (op, .posting left) → left ≤ T) ∧
      (∀ i op timeout max, s.calls i = some (op, .sleeping timeout max) →
        s.sema.sema = 0 → s.posts = 0 →
        s.sema.count < 0 ∧ s.acquired + s.granted + s.unsent = initialCount + s.signalled) := by
  have hAcc := Accounted.of_reachable h
  have hWaiters := hAcc.waiters
  have hPermits := hAcc.permits
  have hCrowd := s.waits_le
  simp only [debt, held] at hWaiters hPermits
  refine ⟨hWaiters, ?_, ?_⟩
  · intro i op left hCall
    have hLeft : left ≤ s.posts := le_sum (fun x => x.2.posts) hCall
    omega
  · intro i op timeout max hCall hSema hPosts
    have hWaits : 1 ≤ s.waits := le_sum (fun x => x.2.waits) hCall
    omega

/-- **Between calls.** When no call is in progress the kernel semaphore is
empty and the counter is what was signalled less what was returned: calls
that timed out have left nothing behind. -/
theorem quiet_exact (h : (boundedSystem p maxSpins initialCount T).Reachable s)
    (hQuiet : ∀ i, s.calls i = none) :
    s.sema.sema = 0 ∧
      s.sema.count + s.acquired = initialCount + total (fun r => r.1.count) s.returned := by
  have hAcc := Accounted.of_reachable h
  have hZero : ∀ f, s.sum f = 0 := fun f => tally_eq_zero fun i => by rw [hQuiet i]; rfl
  have hWaiters := hAcc.waiters
  have hPermits := hAcc.permits
  simp only [debt, held, granted, posts, unsent, waits, signalled, hZero] at hWaiters hPermits
  omega

/-- Two threads that never spin. -/
def pair : System (Crowd 2) (Label 2) := boundedSystem .unix 0 0 2

/-- A caller finds nothing and goes to sleep for two permits. -/
def fallAsleep : List (Label 2) :=
  .call Process.first (.waitMany 2 .indefinite) :: List.replicate 3 (.step Process.first .run)

/-- Three permits are signalled, and one wake-up is made. -/
def postOne : List (Label 2) :=
  .call Process.second (.signal 3) :: List.replicate 2 (.step Process.second .run)

/-- Both calls come to their end. -/
def returnBoth : List (Label 2) :=
  [.step Process.second .run, .ret Process.second] ++
    List.replicate 3 (.step Process.first .run) ++ [.ret Process.first]

def asleep : Crowd 2 := (pair.run pair.init fallAsleep).get rfl

def posted : Crowd 2 := (pair.run pair.init (fallAsleep ++ postOne)).get rfl

def quiet : Crowd 2 := (pair.run pair.init (fallAsleep ++ postOne ++ returnBoth)).get rfl

theorem permits_accounted_posted :
    posted.acquired + posted.granted + (posted.sema.count.toNat + posted.sema.sema) +
        posted.posts + posted.unsent = 0 + posted.signalled ∧
      (∀ r ∈ posted.returned, r.2 ≤ r.1.max) ∧
      (0 ≤ ssizeMax →
        -(ssizeMax : Int) ≤ posted.sema.count ∧ posted.sema.count ≤ ssizeMax) :=
  permits_accounted (System.Reachable.get (M := pair) (fallAsleep ++ postOne) rfl)

theorem waiting_callers_accounted_asleep :
    asleep.sema.count < 0 ∧ asleep.acquired + asleep.granted + asleep.unsent =
      0 + asleep.signalled :=
  (waiting_callers_accounted (System.Reachable.get (M := pair) fallAsleep rfl)).2.2
    Process.first (.waitMany 2 .indefinite) .indefinite 2 rfl rfl (by decide)

theorem quiet_exact_quiet : quiet.sema.sema = 0 ∧ quiet.sema.count + 2 = 0 + 3 :=
  quiet_exact (System.Reachable.get (M := pair) (fallAsleep ++ postOne ++ returnBoth) rfl)
    (by decide)

-- ---------------------------------------------------------------------------
-- Calls come to an end
-- ---------------------------------------------------------------------------

end Crowd

/-- The call can be brought to its end by its own steps. -/
inductive Ends (p : Platform) (maxSpins : Nat) : LightweightSemaphore → Pc → Prop
  | here {s : LightweightSemaphore} {pc : Pc} {k : Nat} (hResult : pc.result = some k) :
      Ends p maxSpins s pc
  | next {s : LightweightSemaphore} {pc : Pc} (c : Choice) (s' : LightweightSemaphore) (pc' : Pc)
      (hStep : s.step p maxSpins pc c = some (s', pc')) (hEnds : Ends p maxSpins s' pc') :
      Ends p maxSpins s pc

section Ends

variable {p : Platform} {maxSpins : Nat} {s : LightweightSemaphore}

/-- A call with this timeout need not sleep for ever. -/
def Able (timeout : Wait) (s : LightweightSemaphore) : Prop :=
  timeout ≠ .indefinite ∨ 0 < s.held

theorem ends_trying_of {place : Place} {max : Nat}
    (hAfter : ∀ k s', (s' = s ∧ k = 0 ∨ 0 < s.count ∧ k = taken s.count max) →
      Ends p maxSpins s' (afterTry maxSpins place max k))
    (oldCount : Option Int) : Ends p maxSpins s (.trying place max oldCount) := by
  -- with the value of the counter at hand, the exchange succeeds
  have hLoaded : Ends p maxSpins s (.trying place max (some s.count)) := by
    by_cases hPos : 0 < s.count
    · refine .next .run _ _ ?_
        (hAfter _ { s with count := newCount s.count max } (.inr ⟨hPos, rfl⟩))
      simp [step, hPos]
    · refine .next .run _ _ ?_ (hAfter _ _ (.inl ⟨rfl, rfl⟩))
      simp [step, hPos]
  cases oldCount with
  | none => exact .next .run _ _ rfl hLoaded
  | some old =>
    by_cases hOld : 0 < old
    · refine .next .fail _ _ ?_ hLoaded
      simp [step, hOld]
    · refine .next .run _ _ ?_ (hAfter _ _ (.inl ⟨rfl, rfl⟩))
      simp [step, hOld]

theorem ends_afterOne (max : Nat) : Ends p maxSpins s (afterOne max) := by
  unfold afterOne
  split
  · exact ends_trying_of (fun k s' _ => .here (k := 1 + k) rfl) none
  · exact .here (k := 1) rfl

/-- The loop of a wait that has failed finds a wake-up, or may give up. -/
theorem ends_adjusting (max : Nat) (oldCount : Option Int)
    (hOwed : s.count < 0 ∨ 0 < s.sema) : Ends p maxSpins s (.adjusting max oldCount) := by
  have hLoaded : Ends p maxSpins s (.adjusting max (some s.count)) := by
    by_cases hNeg : s.count < 0
    · have hNot : ¬ 0 ≤ s.count := by omega
      refine .next .run { s with count := s.count + 1 } (.acquired 0) ?_
        (.here rfl)
      simp [step, hNot]
    · have hSema : 0 < s.sema := by omega
      have hNot : 0 ≤ s.count := by omega
      refine .next .run { s with sema := s.sema - 1 } (afterOne max) ?_
        (ends_afterOne max)
      simp [step, hNot, hSema]
  have hNone : Ends p maxSpins s (.adjusting max none) := .next .run _ _ rfl hLoaded
  cases oldCount with
  | none => exact hNone
  | some old =>
    by_cases hOld : 0 ≤ old
    · by_cases hSema : 0 < s.sema
      · refine .next .run { s with sema := s.sema - 1 } (afterOne max) ?_
          (ends_afterOne max)
        simp [step, hOld, hSema]
      · refine .next .run _ _ ?_ hNone
        simp [step, hOld, hSema]
    · by_cases hEq : s.count = old
      · exact hEq ▸ hLoaded
      · refine .next .run _ _ ?_ hNone
        simp [step, hOld, hEq]

theorem ends_sleeping {timeout : Wait} {max : Nat} (hOwed : s.count < 0 ∨ 0 < s.sema)
    (hAble : timeout ≠ .indefinite ∨ 0 < s.sema) :
    Ends p maxSpins s (.sleeping timeout max) := by
  by_cases hSema : 0 < s.sema
  · refine .next .run { s with sema := s.sema - 1 } (afterOne max) ?_
      (ends_afterOne max)
    simp [step, hSema]
  · refine .next .fail _ (.adjusting max none) ?_ (ends_adjusting max none hOwed)
    have hTimed : timeout ≠ .indefinite := hAble.resolve_right hSema
    simp [step, hTimed]

theorem ends_spinning {timeout : Wait} {max spin : Nat} (hAble : Able timeout s)
    (oldCount : Option Int) : Ends p maxSpins s (.spinning timeout max spin oldCount) := by
  induction spin generalizing oldCount with
  | zero =>
    by_cases hPos : 0 < s.count
    · refine .next .run { s with count := s.count - 1 } (afterOne max) ?_
        (ends_afterOne max)
      simp [step, hPos]
    · by_cases hPoll : timeout = .poll
      · refine .next .run { s with count := s.count - 1 } (.adjusting max none) ?_
          (ends_adjusting max none (.inl ?_))
        · simp [step, hPos, hPoll]
        · show s.count - 1 < 0
          omega
      · refine .next .run { s with count := s.count - 1 } (.sleeping timeout max)
          ?_ (ends_sleeping (.inl ?_) ?_)
        · simp [step, hPos, hPoll]
        · show s.count - 1 < 0
          omega
        · refine hAble.imp id fun hHeld => ?_
          unfold held at hHeld
          show 0 < s.sema
          omega
  | succ spin ih =>
    have hLoaded : Ends p maxSpins s (.spinning timeout max (spin + 1) (some s.count)) := by
      by_cases hPos : 0 < s.count
      · refine .next .run { s with count := newCount s.count max }
          (.acquired (taken s.count max)) ?_ (.here rfl)
        simp [step, hPos]
      · refine .next .run _ _ ?_ (ih none)
        simp [step, hPos]
    cases oldCount with
    | none => exact .next .run _ _ rfl hLoaded
    | some old =>
      by_cases hEq : 0 < old ∧ s.count = old
      · exact hEq.2 ▸ hLoaded
      · refine .next .run _ _ ?_ (ih none)
        simp [step, hEq]

theorem ends_trying {place : Place} {max : Nat} {oldCount : Option Int}
    (hAble : ∀ timeout, place = .first timeout → Able timeout s) :
    Ends p maxSpins s (.trying place max oldCount) := by
  refine ends_trying_of ?_ oldCount
  rintro k s' hAfter
  match place with
  | .only => exact .here (k := k) rfl
  | .more => exact .here (k := 1 + k) rfl
  | .first timeout =>
    simp only [afterTry]
    split
    · next hZero =>
      rcases hAfter with ⟨rfl, -⟩ | ⟨hPos, hTaken⟩
      · exact ends_spinning (hAble timeout rfl) none
      · -- a positive counter gives a positive number
        unfold taken newCount at hTaken
        split at hTaken <;> omega
    · exact .here (k := k) rfl

theorem ends_posting (left : Nat) : Ends p maxSpins s (.posting left) := by
  induction left using Nat.strongRecOn generalizing s with
  | ind left ih =>
    by_cases hLeft : left = 0
    · subst hLeft
      exact .next .run _ _ rfl (.here (k := 0) rfl)
    · have hSome := portion_pos (p := p) (Nat.pos_of_ne_zero hLeft)
      have hLess : left - portion p left < left := by omega
      refine .next .run { s with sema := s.sema + portion p left } _ ?_ (ih _ hLess)
      simp [step, hLeft]

theorem ends_signalling (count : Nat) : Ends p maxSpins s (.signalling count) := by
  refine .next .run _ _ rfl ?_
  split
  · exact ends_posting _
  · exact .here (k := 0) rfl

end Ends

namespace Crowd

variable {T : Nat} {p : Platform} {maxSpins initialCount : Nat} {s s' : Crowd T}

/-- A call that nobody interferes with ends, if what it waits for is there and
it need not sleep for ever. -/
theorem Fits.ends {op : Call} {pc : Pc} {sema : LightweightSemaphore} (hFits : Fits op pc)
    (hOwed : 0 < pc.waits → sema.count < 0 ∨ 0 < sema.sema)
    (hAble : (∀ max, op ≠ .waitMany max .indefinite) ∨ 0 < sema.held) :
    Ends p maxSpins sema pc := by
  cases pc with
  | trying place max oldCount =>
    refine ends_trying ?_
    rintro timeout rfl
    cases op with
    | waitMany m t =>
      obtain ⟨rfl, rfl⟩ : max = m ∧ timeout = t := hFits
      refine hAble.imp ?_ id
      rintro hTimed rfl
      exact hTimed max rfl
    | tryWaitMany m | signal c => exact hFits.elim
  | spinning timeout max spin oldCount =>
    refine ends_spinning ?_ oldCount
    cases op with
    | waitMany m t =>
      obtain ⟨rfl, rfl, -⟩ : max = m ∧ timeout = t ∧ 0 < m := hFits
      refine hAble.imp ?_ id
      rintro hTimed rfl
      exact hTimed max rfl
    | tryWaitMany m | signal c => exact hFits.elim
  | sleeping timeout max =>
    have hWaking := hOwed Nat.one_pos
    refine ends_sleeping hWaking ?_
    cases op with
    | waitMany m t =>
      obtain ⟨rfl, rfl, -⟩ : max = m ∧ timeout = t ∧ 0 < m := hFits
      refine hAble.imp ?_ ?_
      · rintro hTimed rfl
        exact hTimed max rfl
      · -- somebody waits, so what is held is not in the counter
        intro hSome
        unfold held at hSome
        omega
    | tryWaitMany m | signal c => exact hFits.elim
  | adjusting max oldCount => exact ends_adjusting max oldCount (hOwed Nat.one_pos)
  | signalling count => exact ends_signalling count
  | posting left => exact ends_posting left
  | acquired k => exact .here (k := k) rfl
  | signalled => exact .here (k := 0) rfl

/-- A call that has been made moves on whatever is signalled. -/
theorem bounded_step {i : Fin T} {l : Label T} (hOwn : l = .ret i ∨ ∃ c, l = .step i c)
    (h : s.step p maxSpins l = some s') :
    (boundedSystem p maxSpins initialCount T).step s l = some s' := by
  refine System.restrict_step.mpr ⟨?_, h⟩
  obtain rfl | ⟨c, rfl⟩ := hOwn <;> rfl

/-- Call `i` is run to its end and returns. -/
theorem returns_of_ends {i : Fin T} {op : Call} {sema : LightweightSemaphore} {pc : Pc}
    (hEnds : Ends p maxSpins sema pc) (hSema : s.sema = sema)
    (hCall : s.calls i = some (op, pc)) :
    ∃ s' k, (boundedSystem p maxSpins initialCount T).Leads s s' ∧ s'.calls i = none ∧
      s'.returned = s.returned ++ [(op, k)] ∧ ∀ j, j ≠ i → s'.calls j = s.calls j := by
  induction hEnds generalizing s with
  | @here sema pc k hResult =>
    have hMove : (boundedSystem p maxSpins initialCount T).step s (.ret i) = some
        { s with
          calls := Function.update s.calls i none
          returned := s.returned ++ [(op, k)] } :=
      bounded_step (.inl rfl) (by simp [step, hCall, hResult])
    refine ⟨_, k, .single hMove, Function.update_self i none s.calls, rfl, ?_⟩
    intro j hj
    exact Function.update_of_ne hj none s.calls
  | @next sema pc c sema' pc' hStep _ ih =>
    have hMove : (boundedSystem p maxSpins initialCount T).step s (.step i c) = some
        { s with sema := sema', calls := Function.update s.calls i (some (op, pc')) } :=
      bounded_step (.inr ⟨c, rfl⟩) (by simp [step, hCall, hSema, hStep])
    obtain ⟨t, k, hLeads, hNone, hReturned, hOthers⟩ :=
      ih (s := { s with sema := sema', calls := Function.update s.calls i (some (op, pc')) }) rfl
        (Function.update_self ..)
    refine ⟨t, k, (System.Leads.single hMove).trans hLeads, hNone, hReturned, ?_⟩
    intro j hj
    rw [hOthers j hj]
    exact Function.update_of_ne hj ..

/-- A call is where it was, or has made wake-ups. -/
def Posted (x y : Option (Call × Pc)) : Prop :=
  y = x ∨ ∃ op left left', x = some (op, .posting left) ∧ y = some (op, .posting left')

/-- The wake-ups under way reach the kernel. -/
theorem drain (p : Platform) (maxSpins initialCount : Nat) (s : Crowd T) :
    ∃ s', (boundedSystem p maxSpins initialCount T).Leads s s' ∧ s'.posts = 0 ∧
      s'.sema.count = s.sema.count ∧ s'.sema.sema = s.sema.sema + s.posts ∧
      s'.returned = s.returned ∧ ∀ j, Posted (s.calls j) (s'.calls j) := by
  induction hPosts : s.posts using Nat.strongRecOn generalizing s with
  | ind n ih =>
    by_cases hZero : n = 0
    · exact ⟨s, .refl s, hPosts.trans hZero, rfl, by omega, rfl, fun j => .inl rfl⟩
    · obtain ⟨i, hi⟩ := exists_of_tally_pos (f := ifSome fun x : Call × Pc => x.2.posts)
        (g := s.calls)
        (show 0 < s.posts by omega)
      obtain ⟨op, left, hCall⟩ : ∃ op left, s.calls i = some (op, .posting left) := by
        match hCall : s.calls i with
        | none => simp [hCall, ifSome] at hi
        | some (op, pc) =>
          rw [hCall] at hi
          cases pc with
          | posting left => exact ⟨op, left, rfl⟩
          | _ => cases hi
      have hLeft : 0 < left := by simpa [hCall, ifSome, Pc.posts] using hi
      have hPortion := portion_le (p := p) hLeft
      have hSome := portion_pos (p := p) hLeft
      -- one post of call `i`
      let t : Crowd T := { s with
        sema := { s.sema with sema := s.sema.sema + portion p left }
        calls := Function.update s.calls i (some (op, .posting (left - portion p left))) }
      have hMove : (boundedSystem p maxSpins initialCount T).step s (.step i .run) = some t :=
        bounded_step (.inr ⟨.run, rfl⟩)
          (by simp [step, hCall, LightweightSemaphore.step, Nat.ne_of_gt hLeft, t])
      have hSum := sum_update (s := s) (fun x => x.2.posts) i
        (some (op, .posting (left - portion p left)))
      rw [hCall] at hSum
      have hFewer : t.posts + left = s.posts + (left - portion p left) := hSum
      obtain ⟨u, hLeads, hNone, hCount, hSema, hReturned, hOthers⟩ :=
        ih t.posts (by omega) t rfl
      refine ⟨u, (System.Leads.single hMove).trans hLeads, hNone, hCount, ?_, hReturned, ?_⟩
      · rw [hSema]
        show s.sema.sema + portion p left + t.posts = s.sema.sema + n
        omega
      · intro j
        have hj := hOthers j
        by_cases hEq : j = i
        · subst hEq
          rw [show t.calls j = some (op, .posting (left - portion p left)) from
            Function.update_self ..] at hj
          rcases hj with hSame | ⟨op', l, l', hOld, hNew⟩
          · exact .inr ⟨op, left, _, hCall, hSame⟩
          · cases hOld
            exact .inr ⟨op, left, l', hCall, hNew⟩
        · rwa [show t.calls j = s.calls j from Function.update_of_ne hEq ..] at hj

/-- **Every call can be completed.** From every reachable state a call that is
not an indefinite wait can be brought to its return by its own steps and the
wake-ups already under way, whatever the other threads are in the middle of;
so can an indefinite wait while the semaphore holds a permit. In particular
the loop of a wait that has timed out never spins for good. -/
theorem call_completes (h : (boundedSystem p maxSpins initialCount T).Reachable s) {i : Fin T}
    {op : Call} {pc : Pc} (hCall : s.calls i = some (op, pc))
    (hAble : (∀ max, op ≠ .waitMany max .indefinite) ∨ 0 < s.sema.held + s.posts) :
    ∃ s' k, (boundedSystem p maxSpins initialCount T).Leads s s' ∧ s'.calls i = none ∧
      s'.returned = s.returned ++ [(op, k)] ∧
      ∀ j, j ≠ i → Posted (s.calls j) (s'.calls j) := by
  obtain ⟨t, hLeads, hPosts, hCount, hSema, hReturned, hPosted⟩ :=
    drain p maxSpins initialCount s
  have hAcc := Accounted.of_reachable (h.leads hLeads)
  have hWaiters := hAcc.waiters
  obtain ⟨pc', hCall'⟩ : ∃ pc', t.calls i = some (op, pc') := by
    rcases hPosted i with hSame | ⟨op', l, l', hOld, hNew⟩
    · exact ⟨pc, hSame.trans hCall⟩
    · rw [hCall] at hOld
      cases hOld
      exact ⟨_, hNew⟩
  have hEnds : Ends p maxSpins t.sema pc' := by
    refine (hAcc.fits hCall').ends ?_ (hAble.imp id fun hSome => ?_)
    · intro hWaits
      have hLe : pc'.waits ≤ t.waits := le_sum (fun x => x.2.waits) hCall'
      unfold debt at hWaiters
      omega
    · unfold held at hSome ⊢
      omega
  obtain ⟨u, k, hEnd, hNone, hRet, hOthers⟩ := returns_of_ends hEnds rfl hCall'
  refine ⟨u, k, hLeads.trans hEnd, hNone, by rw [hRet, hReturned], ?_⟩
  intro j hj
  rw [hOthers j hj]
  exact hPosted j

theorem call_completes_posted :
    ∃ s' k, pair.Leads posted s' ∧ s'.calls Process.first = none ∧
      s'.returned = [] ++ [(.waitMany 2 .indefinite, k)] ∧
      ∀ j, j ≠ Process.first → Posted (posted.calls j) (s'.calls j) :=
  call_completes (System.Reachable.get (M := pair) (fallAsleep ++ postOne) rfl)
    (show posted.calls Process.first = some (_, .sleeping .indefinite 2) from rfl)
    (.inr (by decide))

end Crowd

end LightweightSemaphore

end ThreadPool.Model
