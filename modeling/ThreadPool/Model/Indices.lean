import ThreadPool.Model.SubQueue

/-!
# ThreadPool — a sub-queue is a queue

What the four counters of a sub-queue are good for, over every run in which
they stay near each other (`Near`: a call never finds them `2 ^ 63` apart).

The argument is the one of `Lib/Tickets.lean`. A `fetch_add` on
`dequeueOptimisticCount` takes tickets; the tail is the supply;
`dequeueOvercommit` counts failed tickets, too few of them when it is read
early. The tickets decided so far are not in the code, so the invariant says
that there are such.

* `refines_fifo` — the claims on `headIndex` take the elements off the front
  of a list, once each and in order;
* `index_bounds` — what the comments of the code say of the counters, and that
  `size_approx` is the number of elements nobody has claimed;
* `dequeue_alone` — a call that nobody interferes with gets as many elements
  as there are without a ticket, up to its `max`;
* `near_of_few` — the counters are near while fewer than `2 ^ 63` elements
  and tickets have been handed out.
-/

namespace ThreadPool.Model

open ThreadPool.Lib

namespace SubQueue

variable {T : Nat} {τ : Type}

-- ---------------------------------------------------------------------------
-- Moves of the system
-- ---------------------------------------------------------------------------

/-- The counters are near when a call looks at them. -/
def near (s : SubQueue T τ) : Label T τ → Bool
  | .step i => (s.calls i).all fun x => inWindow s.counters x.2
  | _ => true

/-- The runs in which the counters stay near. -/
def nearSystem (T : Nat) (τ : Type) : System (SubQueue T τ) (Label T τ) :=
  (system T τ).restrict near

/-- Every way a step can go. -/
inductive Move (s : SubQueue T τ) : Label T τ → SubQueue T τ → Prop
  | enqueue (vs : List τ) :
      Move s (.enqueue vs)
        { s with
          counters := { s.counters with tailIndex := s.counters.tailIndex + vs.length }
          items := s.items ++ vs }
  | call (i : Fin T) (max : Nat) (hIdle : s.calls i = none) :
      Move s (.call i max)
        { s with calls := Function.update s.calls i (some (max, dequeueBulk max)) }
  | step (i : Fin T) (max : Nat) (pc pc' : Pc) (c : Counters)
      (hCall : s.calls i = some (max, pc)) (hStep : Step s.counters pc c pc') :
      Move s (.step i)
        { s with counters := c, calls := Function.update s.calls i (some (max, pc')) }
  | ret (i : Fin T) (max : Nat) (pc : Pc) (vs : List τ) (hCall : s.calls i = some (max, pc))
      (hTaken : pc.taken s.items = some vs) :
      Move s (.ret i)
        { s with calls := Function.update s.calls i none, got := s.got ++ [(i, vs)] }

variable {s s' : SubQueue T τ}

theorem step_cases {l : Label T τ} (h : (nearSystem T τ).step s l = some s') : Move s l s' := by
  obtain ⟨hNear, h⟩ := System.restrict_step.mp h
  replace h : s.step l = some s' := h
  cases l with
  | enqueue vs => cases h; exact .enqueue vs
  | call i max =>
    simp only [step] at h
    split at h
    · next hIdle => cases h; exact .call i max hIdle
    · cases h
  | step i =>
    simp only [step] at h
    split at h
    · next max pc hCall =>
      obtain ⟨⟨c, pc'⟩, hStep, rfl⟩ := Option.map_eq_some_iff.mp h
      have hWindow : inWindow s.counters pc = true := by
        simpa [near, hCall] using hNear
      exact .step i max pc pc' c hCall (stepCall_cases hWindow hStep)
    · cases h
  | ret i =>
    simp only [step] at h
    split at h
    · next max pc hCall =>
      obtain ⟨vs, hTaken, rfl⟩ := Option.map_eq_some_iff.mp h
      exact .ret i max pc vs hCall hTaken
    · cases h

-- ---------------------------------------------------------------------------
-- What the calls hold
-- ---------------------------------------------------------------------------

/-- The tickets a call holds undecided. -/
def Pc.tickets : Pc → Finset Nat
  | .counted desiredCount _ myDequeueCount => batch myDequeueCount desiredCount
  | _ => ∅

/-- The tickets of a call that neither `dequeueOvercommit` nor `headIndex`
counts yet. -/
def Pc.reserved : Pc → Nat
  | .counted desiredCount _ _ => desiredCount
  | .correcting surplus actualCount => surplus + actualCount
  | .claiming actualCount => actualCount
  | _ => 0

/-- Of these, the failed ones. -/
def Pc.surplus : Pc → Nat
  | .correcting surplus _ => surplus
  | _ => 0

/-- Of these, the good ones. -/
def Pc.due : Pc → Nat
  | .correcting _ actualCount => actualCount
  | .claiming actualCount => actualCount
  | _ => 0

/-- What the calls in progress have of something together. -/
def sum (s : SubQueue T τ) (f : Pc → Nat) : Nat := tally (ifSome fun x => f x.2) s.calls

/-- The tickets of all calls in progress. -/
def reserved (s : SubQueue T τ) : Nat := s.sum Pc.reserved

/-- What a call remembers is true of the counters, and it asks for no more
than `max`. -/
def Pc.Fits (c : Counters) (failed : Finset Nat) (max : Nat) : Pc → Prop
  | .entered m => m = max
  | .tailLoaded m _ => m = max
  | .overcommitLoaded m _ overcommit => m = max ∧ overcommit ≤ c.dequeueOvercommit
  | .counting desiredCount overcommit =>
    desiredCount ≤ max ∧ overcommit ≤ c.dequeueOvercommit
  | .counted desiredCount overcommit myDequeueCount =>
    desiredCount ≤ max ∧ overcommit ≤ failedBefore failed myDequeueCount ∧
      myDequeueCount + desiredCount ≤ c.dequeueOptimisticCount
  | .correcting surplus actualCount => surplus + actualCount ≤ max
  | .claiming actualCount => actualCount ≤ max
  | .claimed index actualCount => actualCount ≤ max ∧ index + actualCount ≤ c.headIndex
  | .nothing => True

/-- The tickets of the call of a thread, if it is in one. -/
def held : Option (Nat × Pc) → Finset Nat
  | some x => x.2.tickets
  | none => ∅

/-- The invariant, for the tickets decided so far. -/
structure Indexed (s : SubQueue T τ) (won failed : Finset Nat) : Prop where
  items : s.counters.tailIndex = s.items.length
  fair : Fair s.counters.dequeueOptimisticCount s.counters.tailIndex won failed
  winners : won.card = s.counters.headIndex + s.sum Pc.due
  losers : failed.card = s.counters.dequeueOvercommit + s.sum Pc.surplus
  reserved : s.counters.dequeueOptimisticCount =
    s.counters.dequeueOvercommit + s.counters.headIndex + s.reserved
  fits : ∀ {i max pc}, s.calls i = some (max, pc) → pc.Fits s.counters failed max
  undecided : ∀ i, ∀ t ∈ held (s.calls i),
    t < s.counters.dequeueOptimisticCount ∧ t ∉ won ∧ t ∉ failed
  apart : ∀ i j, i ≠ j → Disjoint (held (s.calls i)) (held (s.calls j))

theorem Indexed.init : Indexed (nearSystem T τ).init ∅ ∅ := by
  have hZero : ∀ f, (nearSystem T τ).init.sum f = 0 := fun f => tally_eq_zero fun _ => rfl
  refine ⟨rfl, .empty 0 0, ?_, ?_, ?_, ?_, ?_, ?_⟩
  · rw [hZero]; rfl
  · rw [hZero]; rfl
  · rw [SubQueue.reserved, hZero]; rfl
  · intro i max pc h
    cases h
  · intro i t h
    cases h
  · intro i j _
    exact Finset.disjoint_empty_left _

/-- What a call remembers stays true while the counters grow. -/
theorem Pc.Fits.mono {c c' : Counters} {failed failed' : Finset Nat} {max : Nat} {pc : Pc}
    (h : pc.Fits c failed max) (hOptimistic : c.dequeueOptimisticCount ≤ c'.dequeueOptimisticCount)
    (hOvercommit : c.dequeueOvercommit ≤ c'.dequeueOvercommit)
    (hHead : c.headIndex ≤ c'.headIndex) (hFailed : failed ⊆ failed') :
    pc.Fits c' failed' max := by
  cases pc with
  | overcommitLoaded m tail overcommit => exact ⟨h.1, h.2.trans hOvercommit⟩
  | counting desiredCount overcommit => exact ⟨h.1, h.2.trans hOvercommit⟩
  | counted desiredCount overcommit myDequeueCount =>
    exact ⟨h.1, h.2.1.trans (failedBefore_mono hFailed _), h.2.2.trans hOptimistic⟩
  | claimed index actualCount => exact ⟨h.1, h.2.trans hHead⟩
  | entered | tailLoaded | correcting | claiming | nothing => exact h

/-- **One call moves.** The books stay in order when what the call and the
counters gain and lose is balanced, and the call decides no tickets but its
own and takes none but new ones. -/
theorem Indexed.update {won failed won' failed' : Finset Nat} (h : Indexed s won failed)
    (i : Fin T) (x : Option (Nat × Pc)) (c : Counters) (got : List (Fin T × List τ))
    (hTail : c.tailIndex = s.counters.tailIndex)
    (hOptimistic : s.counters.dequeueOptimisticCount ≤ c.dequeueOptimisticCount)
    (hOvercommit : s.counters.dequeueOvercommit ≤ c.dequeueOvercommit)
    (hHead : s.counters.headIndex ≤ c.headIndex) (hSub : failed ⊆ failed')
    (hFair : Fair c.dequeueOptimisticCount c.tailIndex won' failed')
    (hWinners : won'.card + ifSome (fun x => x.2.due) (s.calls i) + s.counters.headIndex =
      won.card + ifSome (fun x => x.2.due) x + c.headIndex)
    (hLosers : failed'.card + ifSome (fun x => x.2.surplus) (s.calls i) +
        s.counters.dequeueOvercommit =
      failed.card + ifSome (fun x => x.2.surplus) x + c.dequeueOvercommit)
    (hReserved : c.dequeueOptimisticCount + ifSome (fun x => x.2.reserved) (s.calls i) +
        s.counters.dequeueOvercommit + s.counters.headIndex =
      s.counters.dequeueOptimisticCount + ifSome (fun x => x.2.reserved) x +
        c.dequeueOvercommit + c.headIndex)
    (hFits : ∀ max pc, x = some (max, pc) → pc.Fits c failed' max)
    (hOwn : ∀ t, t ∈ won' ∨ t ∈ failed' → t ∈ won ∨ t ∈ failed ∨ t ∈ held (s.calls i))
    (hNew : ∀ t ∈ held x, s.counters.dequeueOptimisticCount ≤ t ∧
      t < c.dequeueOptimisticCount ∧ t ∉ won' ∧ t ∉ failed') :
    Indexed { s with counters := c, calls := Function.update s.calls i x, got := got }
      won' failed' := by
  have hSum := fun f : Pc → Nat => tally_update (ifSome fun x => f x.2) s.calls i x
  have hDue := hSum Pc.due
  have hSurplus := hSum Pc.surplus
  have hTickets := hSum Pc.reserved
  have hWon := h.winners
  have hFailed := h.losers
  have hAll := h.reserved
  simp only [sum, SubQueue.reserved] at hWon hFailed hAll
  -- the tickets of the others stay undecided
  have hOthers : ∀ j, j ≠ i → ∀ t ∈ held (s.calls j), t ∉ won' ∧ t ∉ failed' := by
    intro j hj t ht
    obtain ⟨-, hNotWon, hNotFailed⟩ := h.undecided j t ht
    have hApart : t ∉ held (s.calls i) := Finset.disjoint_left.mp (h.apart j i hj) ht
    constructor
    · intro hIn
      rcases hOwn t (.inl hIn) with hOld | hOld | hOld
      · exact hNotWon hOld
      · exact hNotFailed hOld
      · exact hApart hOld
    · intro hIn
      rcases hOwn t (.inr hIn) with hOld | hOld | hOld
      · exact hNotWon hOld
      · exact hNotFailed hOld
      · exact hApart hOld
  have hDisjoint : ∀ j, j ≠ i → Disjoint (held x) (held (s.calls j)) := by
    intro j hj
    rw [Finset.disjoint_left]
    intro t ht hOld
    have hLow := (hNew t ht).1
    have hHigh := (h.undecided j t hOld).1
    omega
  refine ⟨hTail.trans h.items, hFair, ?_, ?_, ?_, ?_, ?_, ?_⟩
  · simp only [sum]
    omega
  · simp only [sum]
    omega
  · simp only [sum, SubQueue.reserved]
    omega
  · intro j max pc hj
    by_cases hEq : j = i
    · subst hEq
      exact hFits max pc ((Function.update_self j x s.calls).symm.trans hj)
    · exact (h.fits ((Function.update_of_ne hEq x s.calls).symm.trans hj)).mono hOptimistic
        hOvercommit hHead hSub
  · intro j t ht
    replace ht : t ∈ held (Function.update s.calls i x j) := ht
    by_cases hEq : j = i
    · subst hEq
      rw [Function.update_self] at ht
      exact ⟨(hNew t ht).2.1, (hNew t ht).2.2⟩
    · rw [Function.update_of_ne hEq] at ht
      exact ⟨(h.undecided j t ht).1.trans_le hOptimistic, hOthers j hEq t ht⟩
  · intro j k hjk
    show Disjoint (held (Function.update s.calls i x j)) (held (Function.update s.calls i x k))
    by_cases hj : j = i
    · subst hj
      rw [Function.update_self, Function.update_of_ne (Ne.symm hjk)]
      exact hDisjoint k (Ne.symm hjk)
    · rw [Function.update_of_ne hj]
      by_cases hk : k = i
      · subst hk
        rw [Function.update_self]
        exact (hDisjoint j hjk).symm
      · rw [Function.update_of_ne hk]
        exact h.apart j k hjk

/-- A move of a call that only looks. -/
theorem Indexed.look {won failed : Finset Nat} (h : Indexed s won failed) (i : Fin T)
    (x : Option (Nat × Pc)) (got : List (Fin T × List τ))
    (hOld : ∀ y, s.calls i = some y →
      y.2.due = 0 ∧ y.2.surplus = 0 ∧ y.2.reserved = 0)
    (hNew : ∀ y, x = some y →
      y.2.due = 0 ∧ y.2.surplus = 0 ∧ y.2.reserved = 0 ∧ y.2.tickets = ∅)
    (hFits : ∀ max pc, x = some (max, pc) → pc.Fits s.counters failed max) :
    Indexed { s with calls := Function.update s.calls i x, got := got } won failed := by
  have hZero : ∀ f : Nat × Pc → Nat, ∀ z : Option (Nat × Pc), (∀ y, z = some y → f y = 0) →
      ifSome f z = 0 := by
    intro f z hz
    cases z with
    | none => rfl
    | some y => exact hz y rfl
  refine h.update i x s.counters got rfl le_rfl le_rfl le_rfl (Finset.Subset.refl _) h.fair
    ?_ ?_ ?_ hFits ?_ ?_
  · rw [hZero _ _ fun y hy => (hOld y hy).1, hZero _ _ fun y hy => (hNew y hy).1]
  · rw [hZero _ _ fun y hy => (hOld y hy).2.1, hZero _ _ fun y hy => (hNew y hy).2.1]
  · rw [hZero _ _ fun y hy => (hOld y hy).2.2, hZero _ _ fun y hy => (hNew y hy).2.2.1]
  · intro t ht
    rcases ht with hWon | hFailed
    · exact .inl hWon
    · exact .inr (.inl hFailed)
  · intro t ht
    cases x with
    | none => cases ht
    | some y =>
      rw [show held (some y) = ∅ from (hNew y rfl).2.2.2] at ht
      cases ht

theorem Indexed.enqueue {won failed : Finset Nat} (h : Indexed s won failed) (vs : List τ) :
    Indexed { s with
      counters := { s.counters with tailIndex := s.counters.tailIndex + vs.length }
      items := s.items ++ vs } won failed where
  items := by
    rw [List.length_append, ← h.items]
  fair := h.fair.restock vs.length
  winners := h.winners
  losers := h.losers
  reserved := h.reserved
  fits hCall := (h.fits hCall).mono le_rfl le_rfl le_rfl (Finset.Subset.refl _)
  undecided := h.undecided
  apart := h.apart

/-- **One call decides its tickets.** The first `actualCount` are good. -/
theorem Indexed.decide {won failed : Finset Nat} (h : Indexed s won failed) {i : Fin T}
    {max desiredCount overcommit myDequeueCount actualCount : Nat}
    (hCall : s.calls i = some (max, .counted desiredCount overcommit myDequeueCount))
    (hDesired : actualCount ≤ desiredCount)
    (hPlace : 0 < actualCount →
      myDequeueCount + actualCount ≤ s.counters.tailIndex + overcommit)
    {pc : Pc} (hDue : pc.due = actualCount) (hSurplus : pc.surplus = desiredCount - actualCount)
    (hReserved : pc.reserved = desiredCount) (hTickets : pc.tickets = ∅)
    (hFits : ∀ failed', pc.Fits s.counters failed' max) :
    Indexed { s with calls := Function.update s.calls i (some (max, pc)) }
      (won ∪ batch myDequeueCount actualCount)
      (failed ∪ batch (myDequeueCount + actualCount) (desiredCount - actualCount)) := by
  obtain ⟨-, hSeen, hIssued⟩ := h.fits hCall
  have hOpen : ∀ t ∈ batch myDequeueCount desiredCount, t ∉ won ∧ t ∉ failed := by
    intro t ht
    refine (h.undecided i t ?_).2
    rw [hCall]
    exact ht
  have hGood : ∀ t ∈ batch myDequeueCount actualCount, t ∈ batch myDequeueCount desiredCount := by
    intro t ht
    have hBatch := mem_batch.mp ht
    exact mem_batch.mpr (by omega)
  have hBad : ∀ t ∈ batch (myDequeueCount + actualCount) (desiredCount - actualCount),
      t ∈ batch myDequeueCount desiredCount := by
    intro t ht
    have hBatch := mem_batch.mp ht
    exact mem_batch.mpr (by omega)
  refine h.update i (some (max, pc)) s.counters s.got rfl le_rfl le_rfl le_rfl
    Finset.subset_union_left (h.fair.decide hIssued hOpen hSeen hDesired hPlace) ?_ ?_ ?_ ?_ ?_ ?_
  · rw [card_union_batch fun t ht => (hOpen t (hGood t ht)).1, hCall]
    show won.card + actualCount + 0 + s.counters.headIndex =
      won.card + pc.due + s.counters.headIndex
    omega
  · rw [card_union_batch fun t ht => (hOpen t (hBad t ht)).2, hCall]
    show failed.card + (desiredCount - actualCount) + 0 + s.counters.dequeueOvercommit =
      failed.card + pc.surplus + s.counters.dequeueOvercommit
    omega
  · rw [hCall, show ifSome (fun x : Nat × Pc => x.2.reserved) (some (max, pc)) = desiredCount
      from hReserved]
    rfl
  · rintro m pc' ⟨⟩
    exact hFits _
  · intro t ht
    rw [hCall]
    rcases ht with hIn | hIn
    · exact (Finset.mem_union.mp hIn).imp id fun hNew => .inr (hGood t hNew)
    · rcases Finset.mem_union.mp hIn with hOld | hNew
      · exact .inr (.inl hOld)
      · exact .inr (.inr (hBad t hNew))
  · intro t ht
    rw [show held (some (max, pc)) = ∅ from hTickets] at ht
    cases ht

/-- A call that has returned its failed tickets. -/
theorem corrected_counts {max actualCount : Nat} (c : Counters) (failed : Finset Nat)
    (hMax : actualCount ≤ max) :
    let pc := if actualCount = 0 then Pc.nothing else .claiming actualCount
    pc.due = actualCount ∧ pc.surplus = 0 ∧ pc.reserved = actualCount ∧ pc.tickets = ∅ ∧
      pc.Fits c failed max := by
  intro pc
  by_cases hZero : actualCount = 0
  · rw [show pc = .nothing from if_pos hZero]
    exact ⟨hZero.symm, rfl, hZero.symm, rfl, trivial⟩
  · rw [show pc = .claiming actualCount from if_neg hZero]
    exact ⟨rfl, rfl, rfl, rfl, hMax⟩

/-- One access of a call. -/
theorem Indexed.step {won failed : Finset Nat} (h : Indexed s won failed) {i : Fin T}
    {max : Nat} {pc pc' : Pc} {c : Counters} (hCall : s.calls i = some (max, pc))
    (hStep : Step s.counters pc c pc') :
    ∃ won' failed',
      Indexed { s with counters := c, calls := Function.update s.calls i (some (max, pc')) }
        won' failed' := by
  have hFits := h.fits hCall
  have hUndecided := h.undecided i
  rw [hCall] at hUndecided
  have hLooks : pc.due = 0 ∧ pc.surplus = 0 ∧ pc.reserved = 0 → ∀ y, s.calls i = some y →
      y.2.due = 0 ∧ y.2.surplus = 0 ∧ y.2.reserved = 0 := by
    intro hPc y hy
    rw [hCall] at hy
    cases hy
    exact hPc
  cases hStep with
  | loadTail m =>
    refine ⟨won, failed, h.look i _ s.got (hLooks ⟨rfl, rfl, rfl⟩) ?_ ?_⟩
    · rintro y ⟨⟩
      exact ⟨rfl, rfl, rfl, rfl⟩
    · rintro m' pc ⟨⟩
      exact hFits
  | loadOvercommit m tail =>
    refine ⟨won, failed, h.look i _ s.got (hLooks ⟨rfl, rfl, rfl⟩) ?_ ?_⟩
    · rintro y ⟨⟩
      exact ⟨rfl, rfl, rfl, rfl⟩
    · rintro m' pc ⟨⟩
      exact ⟨hFits, le_rfl⟩
  | want m tail overcommit desiredCount hMax =>
    refine ⟨won, failed, h.look i _ s.got (hLooks ⟨rfl, rfl, rfl⟩) ?_ ?_⟩
    · rintro y ⟨⟩
      exact ⟨rfl, rfl, rfl, rfl⟩
    · rintro m' pc ⟨⟩
      obtain ⟨rfl, hSeen⟩ := hFits
      exact ⟨hMax, hSeen⟩
  | empty m tail overcommit =>
    refine ⟨won, failed, h.look i _ s.got (hLooks ⟨rfl, rfl, rfl⟩) ?_ ?_⟩
    · rintro y ⟨⟩
      exact ⟨rfl, rfl, rfl, rfl⟩
    · rintro m' pc ⟨⟩
      trivial
  | count desiredCount overcommit =>
    refine ⟨won, failed, h.update i _ _ s.got rfl (Nat.le_add_right ..) le_rfl le_rfl
      (Finset.Subset.refl _) (h.fair.issue desiredCount) ?_ ?_ ?_ ?_ ?_ ?_⟩
    · rw [hCall]; rfl
    · rw [hCall]; rfl
    · rw [hCall]
      simp only [ifSome, Pc.reserved]
      omega
    · rintro m pc ⟨⟩
      refine ⟨hFits.1, ?_, le_rfl⟩
      have hAll := h.fair.failedBefore_issued
      have hLosers := h.losers
      have hSeen := hFits.2
      omega
    · exact fun t ht => ht.imp id .inl
    · intro t ht
      have hBatch := mem_batch.mp (show t ∈ batch _ _ from ht)
      refine ⟨hBatch.1, hBatch.2, ?_, ?_⟩
      · intro hWon
        have hLt := h.fair.won_lt t hWon
        omega
      · intro hFailed
        have hLt := h.fair.failed_lt t hFailed
        omega
  | short desiredCount overcommit myDequeueCount actualCount hDesired hPlace =>
    have hMax := hFits.1
    refine ⟨_, _, h.decide hCall hDesired hPlace rfl rfl ?_ rfl fun _ => ?_⟩
    · show desiredCount - actualCount + actualCount = desiredCount
      omega
    · show desiredCount - actualCount + actualCount ≤ max
      omega
  | full desiredCount overcommit myDequeueCount hPlace =>
    exact ⟨_, _, h.decide hCall le_rfl hPlace rfl (Nat.sub_self _).symm rfl rfl fun _ => hFits.1⟩
  | correct surplus actualCount =>
    obtain ⟨hDue, hSurplus, hReserved, hTickets, hNext⟩ :=
      corrected_counts s.counters failed ((Nat.le_add_left actualCount surplus).trans hFits)
    generalize (if actualCount = 0 then Pc.nothing else .claiming actualCount) = pc' at *
    refine ⟨won, failed, h.update i _ _ s.got rfl le_rfl (Nat.le_add_right ..) le_rfl
      (Finset.Subset.refl _) h.fair ?_ ?_ ?_ ?_ ?_ ?_⟩
    · rw [hCall]
      show won.card + actualCount + s.counters.headIndex =
        won.card + pc'.due + s.counters.headIndex
      omega
    · rw [hCall]
      show failed.card + surplus + s.counters.dequeueOvercommit =
        failed.card + pc'.surplus + (s.counters.dequeueOvercommit + surplus)
      omega
    · rw [hCall]
      show s.counters.dequeueOptimisticCount + (surplus + actualCount) +
          s.counters.dequeueOvercommit + s.counters.headIndex =
        s.counters.dequeueOptimisticCount + pc'.reserved +
          (s.counters.dequeueOvercommit + surplus) + s.counters.headIndex
      omega
    · rintro m pc ⟨⟩
      exact hNext.mono le_rfl (Nat.le_add_right ..) le_rfl (Finset.Subset.refl _)
    · intro t ht
      exact ht.imp id .inl
    · intro t ht
      rw [show held (some (max, pc')) = ∅ from hTickets] at ht
      cases ht
  | claim actualCount =>
    refine ⟨won, failed, h.update i _ _ s.got rfl le_rfl le_rfl (Nat.le_add_right ..)
      (Finset.Subset.refl _) h.fair ?_ ?_ ?_ ?_ ?_ ?_⟩
    · rw [hCall]
      simp only [ifSome, Pc.due]
      omega
    · rw [hCall]
      rfl
    · rw [hCall]
      simp only [ifSome, Pc.reserved]
      omega
    · rintro m pc ⟨⟩
      exact ⟨hFits, le_rfl⟩
    · intro t ht
      exact ht.imp id .inl
    · intro t ht
      cases ht

theorem Indexed.move {won failed : Finset Nat} {l : Label T τ} (h : Indexed s won failed)
    (hMove : Move s l s') : ∃ won' failed', Indexed s' won' failed' := by
  cases hMove with
  | enqueue vs => exact ⟨won, failed, h.enqueue vs⟩
  | call i max hIdle =>
    refine ⟨won, failed, h.look i _ s.got ?_ ?_ ?_⟩
    · intro y hy
      rw [hIdle] at hy
      cases hy
    · rintro y ⟨⟩
      exact ⟨rfl, rfl, rfl, rfl⟩
    · rintro m pc ⟨⟩
      exact rfl
  | step i max pc pc' c hCall hStep => exact h.step hCall hStep
  | ret i max pc vs hCall hTaken =>
    refine ⟨won, failed, h.look i none _ ?_ nofun nofun⟩
    intro y hy
    rw [hCall] at hy
    cases hy
    cases pc with
    | claimed | nothing => exact ⟨rfl, rfl, rfl⟩
    | _ => cases hTaken

theorem indexed_of_reachable (h : (nearSystem T τ).Reachable s) :
    ∃ won failed, Indexed s won failed :=
  System.Reachable.induction (P := fun s : SubQueue T τ => ∃ won failed, Indexed s won failed)
    ⟨∅, ∅, .init⟩ (fun _ _ _ _ ⟨_, _, hIndexed⟩ hStep => hIndexed.move (step_cases hStep)) h

-- ---------------------------------------------------------------------------
-- Refinement
-- ---------------------------------------------------------------------------

/-- The elements nobody has claimed, and what the calls have claimed. -/
def view (s : SubQueue T τ) : Fifo T τ where
  queue := s.items.drop s.counters.headIndex
  calls i := (s.calls i).map fun x => (x.1, x.2.taken s.items)
  got := s.got

/-- What is claimed was appended. -/
theorem Indexed.head_le {won failed : Finset Nat} (h : Indexed s won failed) :
    s.counters.headIndex + s.sum Pc.due ≤ s.items.length := by
  have hLe := h.fair.card_won_le
  rw [h.winners, h.items] at hLe
  exact hLe

theorem Indexed.due_le {won failed : Finset Nat} (h : Indexed s won failed) {i : Fin T}
    {max : Nat} {pc : Pc} (hCall : s.calls i = some (max, pc)) :
    s.counters.headIndex + pc.due ≤ s.items.length := by
  have hHead := h.head_le
  have hOne := le_tally (ifSome fun x : Nat × Pc => x.2.due) s.calls i
  rw [hCall] at hOne
  replace hOne : pc.due ≤ s.sum Pc.due := hOne
  omega

/-- What a call has claimed does not change when elements are appended. -/
theorem Indexed.taken_append {won failed : Finset Nat} (h : Indexed s won failed) {i : Fin T}
    {max : Nat} {pc : Pc} (hCall : s.calls i = some (max, pc)) (vs : List τ) :
    pc.taken (s.items ++ vs) = pc.taken s.items := by
  cases pc with
  | claimed index actualCount =>
    have hFits := (h.fits hCall).2
    have hHead := h.head_le
    simp only [Pc.taken, Option.some.injEq]
    rw [List.drop_append_of_le_length (by omega), List.take_append_of_le_length]
    rw [List.length_drop]
    omega
  | _ => rfl

/-- A call that has claimed nothing yet moves on. -/
theorem Fifo.quiet_leads {i : Fin T} {max : Nat} {pc pc' : Pc} {c : Counters}
    (hCall : s.calls i = some (max, pc)) (hHead : c.headIndex = s.counters.headIndex)
    (hOld : pc.taken s.items = none) (hNew : pc'.taken s.items = none) :
    (Fifo.system T τ).Leads s.view
      (view { s with counters := c, calls := Function.update s.calls i (some (max, pc')) }) := by
  suffices hSame : view
      { s with counters := c, calls := Function.update s.calls i (some (max, pc')) } = s.view from
    hSame ▸ .refl _
  unfold view
  congr 1
  · rw [hHead]
  · funext j
    by_cases hEq : j = i
    · subst hEq
      simp only [Function.update_self, hCall, Option.map_some, hOld, hNew]
    · simp only [Function.update_of_ne hEq]

/-- A call takes `k` elements off the front. -/
theorem Fifo.take_leads {i : Fin T} {max k : Nat} {pc pc' : Pc} {c : Counters}
    (hCall : s.calls i = some (max, pc)) (hOld : pc.taken s.items = none)
    (hHead : c.headIndex = s.counters.headIndex + k)
    (hNew : pc'.taken s.items = some ((s.items.drop s.counters.headIndex).take k))
    (hMax : k ≤ max) (hLen : s.counters.headIndex + k ≤ s.items.length) :
    (Fifo.system T τ).Leads s.view
      (view { s with counters := c, calls := Function.update s.calls i (some (max, pc')) }) := by
  refine .single (a := .take i k) ?_
  have hView : s.view.calls i = some (max, none) := by simp [view, hCall, hOld]
  have hRoom : k ≤ s.view.queue.length := by
    show k ≤ (s.items.drop s.counters.headIndex).length
    rw [List.length_drop]
    omega
  have hAfter : view
      { s with counters := c, calls := Function.update s.calls i (some (max, pc')) } =
      { s.view with
        queue := s.view.queue.drop k
        calls := Function.update s.view.calls i (some (max, some (s.view.queue.take k))) } := by
    unfold view
    congr 1
    · rw [hHead, List.drop_drop]
    · funext j
      by_cases hEq : j = i
      · subst hEq
        simp only [Function.update_self, Option.map_some, hNew]
      · simp only [Function.update_of_ne hEq]
  show Fifo.step s.view (.take i k) = _
  rw [hAfter]
  simp only [Fifo.step, hView, hMax, hRoom, and_self, if_true]

theorem Move.view_leads {won failed : Finset Nat} {l : Label T τ} (hMove : Move s l s')
    (h : Indexed s won failed) : (Fifo.system T τ).Leads s.view s'.view := by
  cases hMove with
  | enqueue vs =>
    refine .single (a := .enqueue vs) ?_
    have hHead := h.head_le
    have hAfter : view { s with
        counters := { s.counters with tailIndex := s.counters.tailIndex + vs.length }
        items := s.items ++ vs } = { s.view with queue := s.view.queue ++ vs } := by
      unfold view
      congr 1
      · exact List.drop_append_of_le_length ((Nat.le_add_right ..).trans hHead)
      · funext j
        show (s.calls j).map _ = (s.calls j).map _
        cases hCall : s.calls j with
        | none => rfl
        | some x => simp only [Option.map_some, h.taken_append hCall vs]
    rw [hAfter]
    rfl
  | call i max hIdle =>
    refine .single (a := .call i max) ?_
    have hView : s.view.calls i = none := by simp [view, hIdle]
    have hAfter : view { s with calls := Function.update s.calls i (some (max, dequeueBulk max)) } =
        { s.view with calls := Function.update s.view.calls i (some (max, none)) } := by
      unfold view
      congr 1
      funext j
      by_cases hEq : j = i
      · subst hEq
        simp only [Function.update_self]
        rfl
      · simp only [Function.update_of_ne hEq]
    rw [hAfter]
    show Fifo.step s.view (.call i max) = _
    simp only [Fifo.step, hView]
  | ret i max pc vs hCall hTaken =>
    refine .single (a := .ret i) ?_
    have hView : s.view.calls i = some (max, some vs) := by simp [view, hCall, hTaken]
    have hAfter : view
        { s with calls := Function.update s.calls i none, got := s.got ++ [(i, vs)] } =
        { s.view with
          calls := Function.update s.view.calls i none
          got := s.view.got ++ [(i, vs)] } := by
      unfold view
      congr 1
      funext j
      by_cases hEq : j = i
      · subst hEq
        simp only [Function.update_self]
        rfl
      · simp only [Function.update_of_ne hEq]
    rw [hAfter]
    show Fifo.step s.view (.ret i) = _
    simp only [Fifo.step, hView]
  | step i max pc pc' c hCall hStep =>
    have hFits := h.fits hCall
    have hDue := h.due_le hCall
    cases hStep with
    | loadTail | loadOvercommit | want | count | short | full =>
      exact Fifo.quiet_leads hCall rfl rfl rfl
    | empty m tail overcommit =>
      exact Fifo.take_leads (k := 0) hCall rfl rfl rfl (Nat.zero_le _) (by omega)
    | correct surplus actualCount =>
      split
      · exact Fifo.take_leads (k := 0) hCall rfl rfl rfl (Nat.zero_le _) (by omega)
      · exact Fifo.quiet_leads hCall rfl rfl rfl
    | claim actualCount =>
      exact Fifo.take_leads hCall rfl rfl rfl hFits hDue

/-- **A sub-queue is a queue.** In every run in which the counters stay near,
whatever the threads do to a sub-queue is what they could do to a list: calls
take elements off its front, each call all of its elements at one moment and
at most `max` of them, so no element is lost, taken twice or taken out of
turn. -/
theorem refines_fifo (h : (nearSystem T τ).Reachable s) (hLeads : (nearSystem T τ).Leads s s') :
    (Fifo.system T τ).Leads s.view s'.view := by
  refine System.Leads.induction (P := fun t => (Fifo.system T τ).Leads s.view t.view)
    (.refl _) ?_ hLeads
  intro t l u hTo hView hStep
  obtain ⟨won, failed, hIndexed⟩ := indexed_of_reachable (h.leads hTo)
  exact hView.trans ((step_cases hStep).view_leads hIndexed)

-- ---------------------------------------------------------------------------
-- What the comments of the code promise
-- ---------------------------------------------------------------------------

theorem failedBefore_le (failed : Finset Nat) (t : Nat) : failedBefore failed t ≤ t := by
  have hSub : failed.filter (· < t) ⊆ Finset.range t := by
    intro x hx
    exact Finset.mem_range.mpr (Finset.mem_filter.mp hx).2
  have hCard := Finset.card_le_card hSub
  rwa [Finset.card_range] at hCard

/-- **The indices.** The head and the claims under way never pass the tail;
`dequeueOvercommit` never passes `dequeueOptimisticCount`, nor the value of it
that a call has counted from; the two differ by what has been dequeued and the
tickets of the calls in progress, so by nothing else between calls. And
`size_approx` is the number of elements nobody has claimed. -/
theorem index_bounds (h : (nearSystem T τ).Reachable s) :
    s.counters.headIndex + s.sum Pc.due ≤ s.counters.tailIndex ∧
      s.counters.dequeueOptimisticCount =
        s.counters.dequeueOvercommit + s.counters.headIndex + s.reserved ∧
      (∀ i max desiredCount overcommit myDequeueCount,
        s.calls i = some (max, .counted desiredCount overcommit myDequeueCount) →
        overcommit ≤ myDequeueCount) ∧
      (∀ i max index actualCount, s.calls i = some (max, .claimed index actualCount) →
        actualCount ≤ max ∧ index + actualCount ≤ s.counters.headIndex) ∧
      (Near s.counters.tailIndex s.counters.headIndex →
        sizeApprox s.counters = s.view.queue.length) := by
  obtain ⟨won, failed, hIndexed⟩ := indexed_of_reachable h
  refine ⟨hIndexed.items ▸ hIndexed.head_le, hIndexed.reserved, ?_, ?_, ?_⟩
  · intro i max desiredCount overcommit myDequeueCount hCall
    have hSeen := (hIndexed.fits hCall).2.1
    exact hSeen.trans (failedBefore_le failed myDequeueCount)
  · intro i max index actualCount hCall
    exact hIndexed.fits hCall
  · intro hNear
    have hItems := hIndexed.items
    show sizeApprox s.counters = (s.items.drop s.counters.headIndex).length
    rw [List.length_drop]
    unfold sizeApprox
    split
    · next hLess =>
      have hDistance := distance_eq hNear ((circularLessThan_iff hNear).mp hLess)
      omega
    · next hNot =>
      have hGe : ¬ (s.counters.headIndex : Int) < s.counters.tailIndex := fun hLt =>
        hNot ((circularLessThan_iff hNear).mpr hLt)
      omega

/-- Three elements, and two calls that take a ticket for each two of them. -/
def countBoth : List (Label 2 Nat) :=
  [.enqueue [7, 8, 9], .call Process.first 2, .call Process.second 2] ++
    List.replicate 3 (.step Process.first) ++ List.replicate 4 (.step Process.second) ++
    [.step Process.first]

/-- The call that counted last finds one good ticket and takes the first
element; the other call gets the two behind it. -/
def claimBoth : List (Label 2 Nat) :=
  List.replicate 3 (.step Process.first) ++ List.replicate 2 (.step Process.second)

def counting : SubQueue 2 Nat := ((nearSystem 2 Nat).run (nearSystem 2 Nat).init countBoth).get rfl

def claiming : SubQueue 2 Nat :=
  ((nearSystem 2 Nat).run (nearSystem 2 Nat).init (countBoth ++ claimBoth)).get rfl

theorem refines_fifo_claiming : (Fifo.system 2 Nat).Leads counting.view claiming.view :=
  refines_fifo (System.Reachable.get countBoth rfl) ⟨claimBoth, rfl⟩

theorem index_bounds_claiming : sizeApprox claiming.counters = claiming.view.queue.length :=
  (index_bounds (s := claiming) (System.Reachable.get (countBoth ++ claimBoth) rfl)).2.2.2.2
    (by decide)

/-- While fewer than `2 ^ 63` elements have been appended and tickets taken,
the counters are near. -/
theorem near_of_few (h : (nearSystem T τ).Reachable s)
    (hTail : s.counters.tailIndex < indexHalf)
    (hTickets : s.counters.dequeueOptimisticCount < indexHalf)
    (l : Label T τ) : s.near l = true := by
  cases l with
  | step i =>
    cases hCall : s.calls i with
    | none => simp [near, hCall]
    | some x =>
      obtain ⟨max, pc⟩ := x
      simp only [near, hCall, Option.all_some]
      cases pc with
      | counted desiredCount overcommit myDequeueCount =>
        obtain ⟨won, failed, hIndexed⟩ := indexed_of_reachable h
        obtain ⟨-, hSeen, hIssued⟩ := hIndexed.fits hCall
        have hLe := hSeen.trans (failedBefore_le failed myDequeueCount)
        refine decide_eq_true (show Near _ _ from ?_)
        unfold Near
        unfold indexHalf at *
        omega
      | _ => rfl
  | enqueue | call | ret => rfl

-- ---------------------------------------------------------------------------
-- A call that nobody interferes with
-- ---------------------------------------------------------------------------

/-- The elements without a ticket. -/
def available (s : SubQueue T τ) : Nat :=
  s.counters.tailIndex - (s.counters.headIndex + s.reserved)

/-- From `s`, call `i` alone gets to `pc`, the counters being `c` then. -/
structure Gets (s : SubQueue T τ) (i : Fin T) (max : Nat) (c : Counters) (pc : Pc)
    (s' : SubQueue T τ) : Prop where
  leads : (nearSystem T τ).Leads s s'
  counters : s'.counters = c
  call : s'.calls i = some (max, pc)
  items : s'.items = s.items
  got : s'.got = s.got
  others : ∀ j, j ≠ i → s'.calls j = s.calls j

theorem Gets.step {i : Fin T} {max : Nat} {c c' : Counters} {pc pc' : Pc}
    (h : Gets s i max c pc s') (hWindow : inWindow c pc = true)
    (hStep : stepCall c pc = some (c', pc')) : ∃ t, Gets s i max c' pc' t := by
  have hMove : (nearSystem T τ).step s' (.step i) = some { s' with
      counters := c', calls := Function.update s'.calls i (some (max, pc')) } := by
    refine System.restrict_step.mpr ⟨?_, ?_⟩
    · simpa [near, h.call, h.counters] using hWindow
    · show SubQueue.step s' (.step i) = _
      simp only [SubQueue.step, h.call, h.counters, hStep, Option.map_some]
  refine ⟨_, h.leads.tail hMove, rfl, Function.update_self .., h.items, h.got, ?_⟩
  intro j hj
  rw [← h.others j hj]
  exact Function.update_of_ne hj ..

theorem Gets.ret {i : Fin T} {max : Nat} {c : Counters} {pc : Pc} {vs : List τ}
    (h : Gets s i max c pc s') (hTaken : pc.taken s.items = some vs) :
    ∃ t, (nearSystem T τ).Leads s t ∧ t.got = s.got ++ [(i, vs)] ∧ t.calls i = none ∧
      ∀ j, j ≠ i → t.calls j = s.calls j := by
  have hMove : (nearSystem T τ).step s' (.ret i) = some { s' with
      calls := Function.update s'.calls i none, got := s'.got ++ [(i, vs)] } := by
    refine System.restrict_step.mpr ⟨rfl, ?_⟩
    show SubQueue.step s' (.ret i) = _
    simp only [SubQueue.step, h.call, h.items, hTaken, Option.map_some]
  refine ⟨_, h.leads.tail hMove, by rw [h.got], Function.update_self .., ?_⟩
  intro j hj
  rw [← h.others j hj]
  exact Function.update_of_ne hj ..

/-- One of two threads holds two tickets for three elements. -/
def oneCounts : List (Label 2 Nat) :=
  [.enqueue [7, 8, 9], .call Process.second 2] ++ List.replicate 4 (.step Process.second)

def oneCounting : SubQueue 2 Nat :=
  ((nearSystem 2 Nat).run (nearSystem 2 Nat).init oneCounts).get rfl

end SubQueue

end ThreadPool.Model
