import ThreadPool.Model.ProducerHash

/-!
# ThreadPool — every thread has a producer of its own

What holds of every run of `get_or_add_implicit_producer`.

* `Sound` — the invariant: what is in the tables, who is counted, who makes a
  table, and what every call remembers;
* `Pc.Fits.mono` — the others do not make untrue what a call remembers;
* `Sound.room` — `implicitProducerHashCount` keeps a place free in every table;
* `Sound.step` — every step keeps the invariant;
* `free_entry`, `at_rest`, `own_producer` — the results.
-/

namespace ThreadPool.Model

open ThreadPool.Lib

namespace ProducerHash

variable {T : Nat} {hashThreadId : Fin T → Nat} {s s' : ProducerHash T}

-- ---------------------------------------------------------------------------
-- What is true of a run
-- ---------------------------------------------------------------------------

/-- The call is counted by `implicitProducerHashCount`. -/
def Pc.counted : Pc → Bool
  | .testing _ _ => true
  | .locked _ => true
  | .allocating _ _ => true
  | .publishing _ _ _ => true
  | .unlocking _ _ => true
  | .refused => true
  | .creating _ _ => true
  | .undoing => true
  | .waiting _ => true
  | _ => false

/-- The call has set `implicitProducerHashResizeInProgress`. -/
def Pc.holds : Pc → Bool
  | .locked _ => true
  | .allocating _ _ => true
  | .publishing _ _ _ => true
  | .unlocking _ _ => true
  | .refused => true
  | .releasing => true
  | _ => false

/-- The call has a producer and puts the id into a table. -/
def Pc.inserts : Pc → Bool
  | .inserting _ _ _ => true
  | .taking _ _ _ => true
  | _ => false

/-- The threads that `implicitProducerHashCount` counts. -/
def live (s : ProducerHash T) : Finset (Fin T) :=
  Finset.univ.filter fun i => i ∈ s.producers ∨ (s.calls i).any Pc.counted = true

/-- The search for the place of `i` in table `t` has come to `index`. -/
def Search (hashThreadId : Fin T → Nat) (s : ProducerHash T) (t index : Nat) (i : Fin T) : Prop :=
  ∃ n, index = probe (s.capacity t) (hashThreadId i) n ∧
    Seen (s.tables t).key (s.capacity t) (hashThreadId i) i n

/-- The id of thread `i` may go into table `m`, with its producer. -/
def Goes (s : ProducerHash T) (rank : Fin T → Nat) (i : Fin T) (m : Nat) (value : Option Nat) :
    Prop :=
  m < s.made ∧ (∃ p, value = some p ∧ s.producers[p]? = some i) ∧ rank i < s.threeQuarters m ∧
    ∀ x, (s.tables m).key x ≠ some i

/-- What the call of thread `i` remembers is true. `rank` is the count that a
thread got when it was counted. -/
def Pc.Fits (hashThreadId : Fin T → Nat) (s : ProducerHash T) (rank : Fin T → Nat) (i : Fin T) :
    Pc → Prop
  | .entered => True
  | .probing m t index =>
    t ≤ m ∧ m < s.made ∧ (∀ u x, t < u → u < s.made → (s.tables u).key x ≠ some i) ∧
      Search hashThreadId s t (index % s.capacity t) i
  | .inserting m index value =>
    Goes s rank i m value ∧ Search hashThreadId s m (index % s.capacity m) i
  | .taking m index value => Goes s rank i m value ∧ Search hashThreadId s m index i
  | .storing m index value =>
    m < s.made ∧ (s.tables m).key index = some i ∧ ∃ p, value = some p ∧ s.producers[p]? = some i
  | .counting m => m < s.made ∧ i ∉ s.producers
  | .testing m newCount => m < s.made ∧ i ∉ s.producers ∧ rank i = newCount
  | .locked newCount => i ∉ s.producers ∧ rank i = newCount
  | .allocating m newCount => m + 1 = s.made ∧ i ∉ s.producers ∧ rank i = newCount
  | .publishing m newCount newCapacity =>
    m + 1 = s.made ∧ i ∉ s.producers ∧ rank i = newCount ∧ 2 * s.capacity m ≤ newCapacity
  | .unlocking m newCount => m < s.made ∧ i ∉ s.producers ∧ rank i = newCount
  | .refused => i ∉ s.producers
  | .releasing => i ∉ s.producers
  | .creating m newCount =>
    m < s.made ∧ i ∉ s.producers ∧ rank i = newCount ∧ newCount < s.threeQuarters m
  | .undoing => i ∉ s.producers
  | .waiting newCount => i ∉ s.producers ∧ rank i = newCount
  | .returning value =>
    (∃ p, value = some p ∧ s.producers[p]? = some i) ∨ (value = none ∧ i ∉ s.producers)

/-- The invariant. `holder` is the thread that has set
`implicitProducerHashResizeInProgress`. -/
structure Sound (hashThreadId : Fin T → Nat) (s : ProducerHash T) (rank : Fin T → Nat)
    (holder : Option (Fin T)) : Prop where
  tables : ∀ t, t < s.made → Addressed (s.tables t).key (s.capacity t) hashThreadId
  capacity_pos : ∀ t, t < s.made → 0 < s.capacity t
  chain : ∀ t, t < s.made → (s.tables t).prev = if t = 0 then none else some (t - 1)
  newest : s.implicitProducerHash + 1 = s.made
  doubled : ∀ t, t + 1 < s.made → 2 * s.capacity t ≤ s.capacity (t + 1)
  listed : ∀ t x i, t < s.made → (s.tables t).key x = some i →
    i ∈ s.producers ∧ rank i < s.threeQuarters t
  values : ∀ t x i, t < s.made → (s.tables t).key x = some i →
    (∀ value, s.calls i ≠ some (.storing t x value)) →
    ∃ p, (s.tables t).value x = some p ∧ s.producers[p]? = some i
  found : ∀ i, i ∈ s.producers → (s.calls i).any Pc.inserts = false →
    ∃ t x, t < s.made ∧ (s.tables t).key x = some i
  nodup : s.producers.Nodup
  count : s.implicitProducerHashCount = s.live.card
  ranked : Ranked s.live rank
  lock : s.implicitProducerHashResizeInProgress = holder.isSome
  holds : ∀ i, (s.calls i).any Pc.holds = true ↔ holder = some i
  fits : ∀ i pc, s.calls i = some pc → pc.Fits hashThreadId s rank i
  returned : ∀ i p, (i, some p) ∈ s.returned → s.producers[p]? = some i

variable {rank rank' : Fin T → Nat} {holder holder' : Option (Fin T)}

theorem Sound.init (hashThreadId : Fin T → Nat) {initialSize : Nat} (hSize : 0 < initialSize) :
    Sound hashThreadId (system T hashThreadId initialSize).init (fun _ => 0) none := by
  have hLive : live (system T hashThreadId initialSize).init = ∅ := by
    ext i
    simp [live, system]
  refine ⟨?_, ?_, ?_, rfl, ?_, ?_, ?_, ?_, List.nodup_nil, ?_, ?_, rfl, ?_, ?_, ?_⟩
  · intro t _
    exact Addressed.empty initialSize hashThreadId
  · intro t _
    exact hSize
  · intro t ht
    exact (if_pos (Nat.lt_one_iff.mp ht)).symm
  · intro t ht
    cases Nat.not_lt_zero t (Nat.lt_of_succ_lt_succ ht)
  · intro t x i _ hKey
    cases hKey
  · intro t x i _ hKey
    cases hKey
  · intro i hi
    cases hi
  · rw [hLive]
    rfl
  · rw [hLive]
    exact Ranked.empty _
  · intro i
    exact ⟨fun hHolds => absurd hHolds Bool.false_ne_true, fun hEq => by cases hEq⟩
  · intro i pc hCall
    cases hCall
  · intro i p hIn
    cases hIn

-- ---------------------------------------------------------------------------
-- Frames
-- ---------------------------------------------------------------------------

theorem mem_live {i : Fin T} :
    i ∈ s.live ↔ i ∈ s.producers ∨ (s.calls i).any Pc.counted = true := by
  simp [live]

/-- What a call remembers stays true while others put their ids into tables,
make new tables and get producers. -/
theorem Pc.Fits.mono {i : Fin T} {pc : Pc} (h : pc.Fits hashThreadId s rank i)
    (hMade : s.made ≤ s'.made) (hLock : pc.holds = true → s'.made = s.made)
    (hCapacity : ∀ t, t < s.made → s'.capacity t = s.capacity t)
    (hKeys : ∀ t x k, t < s.made → (s.tables t).key x = some k → (s'.tables t).key x = some k)
    (hOwn : ∀ t x, t < s'.made → (s'.tables t).key x = some i →
      t < s.made ∧ (s.tables t).key x = some i)
    (hProducers : ∀ p : Nat, s.producers[p]? = some i → s'.producers[p]? = some i)
    (hNone : i ∉ s.producers → i ∉ s'.producers) (hRank : rank' i = rank i) :
    pc.Fits hashThreadId s' rank' i := by
  have hSearch : ∀ {t index}, t < s.made → Search hashThreadId s t index i →
      Search hashThreadId s' t index i := by
    rintro t index ht ⟨n, hIndex, hSeen⟩
    refine ⟨n, by rw [hCapacity t ht, hIndex], ?_⟩
    rw [hCapacity t ht]
    exact hSeen.mono fun x k => hKeys t x k ht
  have hGoes : ∀ {m value}, Goes s rank i m value → Goes s' rank' i m value := by
    rintro m value ⟨hm, ⟨p, hValue, hp⟩, hLess, hAbsent⟩
    refine ⟨hm.trans_le hMade, ⟨p, hValue, hProducers p hp⟩, ?_, ?_⟩
    · rw [hRank]
      unfold threeQuarters
      rw [hCapacity m hm]
      exact hLess
    · intro x hx
      exact hAbsent x (hOwn m x (hm.trans_le hMade) hx).2
  cases pc with
  | entered => trivial
  | probing m t index =>
    obtain ⟨hLe, hm, hAbsent, hAt⟩ := h
    refine ⟨hLe, hm.trans_le hMade, ?_, ?_⟩
    · intro u x hu hu' hKey
      obtain ⟨hOld, hKeyOld⟩ := hOwn u x hu' hKey
      exact hAbsent u x hu hOld hKeyOld
    · rw [hCapacity t (hLe.trans_lt hm)]
      exact hSearch (hLe.trans_lt hm) hAt
  | inserting m index value =>
    refine ⟨hGoes h.1, ?_⟩
    rw [hCapacity m h.1.1]
    exact hSearch h.1.1 h.2
  | taking m index value => exact ⟨hGoes h.1, hSearch h.1.1 h.2⟩
  | storing m index value =>
    obtain ⟨hm, hKey, p, hValue, hp⟩ := h
    exact ⟨hm.trans_le hMade, hKeys m index i hm hKey, p, hValue, hProducers p hp⟩
  | counting m => exact ⟨h.1.trans_le hMade, hNone h.2⟩
  | testing m newCount | unlocking m newCount =>
    exact ⟨h.1.trans_le hMade, hNone h.2.1, hRank.trans h.2.2⟩
  | locked newCount | waiting newCount => exact ⟨hNone h.1, hRank.trans h.2⟩
  | allocating m newCount =>
    exact ⟨h.1.trans (hLock rfl).symm, hNone h.2.1, hRank.trans h.2.2⟩
  | publishing m newCount newCapacity =>
    refine ⟨h.1.trans (hLock rfl).symm, hNone h.2.1, hRank.trans h.2.2.1, ?_⟩
    rw [hCapacity m (by have hm := h.1; omega)]
    exact h.2.2.2
  | refused | releasing | undoing => exact hNone h
  | creating m newCount =>
    refine ⟨h.1.trans_le hMade, hNone h.2.1, hRank.trans h.2.2.1, ?_⟩
    unfold threeQuarters
    rw [hCapacity m h.1]
    exact h.2.2.2
  | returning value =>
    rcases h with ⟨p, hValue, hp⟩ | ⟨hValue, hNot⟩
    · exact .inl ⟨p, hValue, hProducers p hp⟩
    · exact .inr ⟨hValue, hNone hNot⟩

-- ---------------------------------------------------------------------------
-- Steps that touch no table
-- ---------------------------------------------------------------------------

variable {i : Fin T} {pc : Pc}

theorem any_update (p : Pc → Bool) (c : Fin T → Option Pc) {x y : Option Pc} (hCall : c i = y)
    (hSame : x.any p = y.any p) (j : Fin T) :
    (Function.update c i x j).any p = (c j).any p := by
  rw [Function.update_apply]
  split
  · next hEq => rw [hEq, hCall, hSame]
  · rfl

theorem live_same {x y : Option Pc} (hProducers : s'.producers = s.producers)
    (hCalls : s'.calls = Function.update s.calls i x) (hCall : s.calls i = y)
    (hSame : x.any Pc.counted = y.any Pc.counted) : s'.live = s.live := by
  ext j
  rw [mem_live, mem_live, hProducers, hCalls, any_update Pc.counted s.calls hCall hSame j]

/-- The call of thread `i` goes on to `x`. -/
theorem Sound.pass (h : Sound hashThreadId s rank holder) {y : Option Pc} (hCall : s.calls i = y)
    (x : Option Pc) (count' : Nat) (resizing' : Bool) (returned' : List (Fin T × Option Nat))
    (hStoring : ∀ t z value, y ≠ some (.storing t z value))
    (hRank : ∀ j, j ≠ i ∨ j ∈ s.producers → rank' j = rank j)
    (hFits : ∀ pc', x = some pc' → pc'.Fits hashThreadId s rank' i)
    (hInserts : y.any Pc.inserts = false ∨ x.any Pc.inserts = true)
    (hCount : count' = (live { s with calls := Function.update s.calls i x }).card)
    (hRanked : Ranked (live { s with calls := Function.update s.calls i x }) rank')
    (hLock : resizing' = holder'.isSome)
    (hHolds : ∀ j, (Function.update s.calls i x j).any Pc.holds = true ↔ holder' = some j)
    (hReturned : ∀ j p, (j, some p) ∈ returned' → s.producers[p]? = some j) :
    Sound hashThreadId
      { s with
        implicitProducerHashCount := count'
        implicitProducerHashResizeInProgress := resizing'
        calls := Function.update s.calls i x
        returned := returned' } rank' holder' where
  tables := h.tables
  capacity_pos := h.capacity_pos
  chain := h.chain
  newest := h.newest
  doubled := h.doubled
  listed := by
    intro t z j ht hKey
    obtain ⟨hIn, hLess⟩ := h.listed t z j ht hKey
    refine ⟨hIn, ?_⟩
    rw [hRank j (.inr hIn)]
    exact hLess
  values := by
    intro t z j ht hKey hNot
    refine h.values t z j ht hKey fun value hAt => ?_
    by_cases hEq : j = i
    · subst hEq
      exact hStoring t z value (hCall.symm.trans hAt)
    · exact hNot value ((Function.update_of_ne hEq ..).trans hAt)
  found := by
    intro j hj hNot
    refine h.found j hj ?_
    dsimp only at hNot
    by_cases hEq : j = i
    · subst hEq
      rw [Function.update_self] at hNot
      rw [hCall]
      rcases hInserts with hOld | hNew
      · exact hOld
      · rw [hNew] at hNot
        cases hNot
    · rwa [Function.update_of_ne hEq] at hNot
  nodup := h.nodup
  count := hCount
  ranked := hRanked
  lock := hLock
  holds := hHolds
  fits := by
    intro j pc' hj
    dsimp only at hj
    by_cases hEq : j = i
    · subst hEq
      rw [Function.update_self] at hj
      exact hFits pc' hj
    · rw [Function.update_of_ne hEq] at hj
      exact (h.fits j pc' hj).mono le_rfl (fun _ => rfl) (fun _ _ => rfl) (fun _ _ _ _ hk => hk)
        (fun _ _ ht hk => ⟨ht, hk⟩) (fun _ hp => hp) id (hRank j (.inl hEq))
  returned := hReturned

/-- The call goes on; it is counted, and has the lock, as before. -/
theorem Sound.look (h : Sound hashThreadId s rank holder) (hCall : s.calls i = some pc) (pc' : Pc)
    (hStoring : ∀ t z value, some pc ≠ some (.storing t z value))
    (hCounted : pc'.counted = pc.counted)
    (hHolds : pc'.holds = pc.holds) (hInserts : pc.inserts = false ∨ pc'.inserts = true)
    (hFits : pc'.Fits hashThreadId s rank i) :
    Sound hashThreadId (s.setCall i (some pc')) rank holder := by
  have hLive : live { s with calls := Function.update s.calls i (some pc') } = s.live :=
    live_same rfl rfl hCall hCounted
  refine h.pass hCall (some pc') s.implicitProducerHashCount
    s.implicitProducerHashResizeInProgress s.returned hStoring (fun _ _ => rfl) ?_ hInserts
    (hLive ▸ h.count) (hLive ▸ h.ranked) h.lock ?_ h.returned
  · intro pc₁ hEq
    cases hEq
    exact hFits
  · intro j
    rw [any_update Pc.holds s.calls hCall (x := some pc') hHolds]
    exact h.holds j

/-- The call takes the lock. -/
theorem Sound.acquire (h : Sound hashThreadId s rank holder) (hCall : s.calls i = some pc)
    (hFree : s.implicitProducerHashResizeInProgress = false) (pc' : Pc)
    (hStoring : ∀ t z value, some pc ≠ some (.storing t z value))
    (hCounted : pc'.counted = pc.counted)
    (hHolds : pc'.holds = true) (hInserts : pc.inserts = false)
    (hFits : pc'.Fits hashThreadId s rank i) :
    Sound hashThreadId
      ({ s with implicitProducerHashResizeInProgress := true }.setCall i (some pc')) rank
      (some i) := by
  have hLive : live { s with calls := Function.update s.calls i (some pc') } = s.live :=
    live_same rfl rfl hCall hCounted
  have hNobody : holder = none := by
    rw [h.lock] at hFree
    exact Option.isSome_eq_false_iff.mp hFree |> Option.isNone_iff_eq_none.mp
  refine h.pass hCall (some pc') s.implicitProducerHashCount true s.returned hStoring
    (fun _ _ => rfl) ?_ (.inl hInserts) (hLive ▸ h.count) (hLive ▸ h.ranked) rfl ?_ h.returned
  · intro pc₁ hEq
    cases hEq
    exact hFits
  · intro j
    rw [Function.update_apply]
    split
    · next hEq => exact ⟨fun _ => congrArg some hEq.symm, fun _ => hHolds⟩
    · next hNe =>
      rw [h.holds j, hNobody]
      exact ⟨(fun hEq => by cases hEq), fun hEq => absurd (Option.some.inj hEq).symm hNe⟩

/-- The call gives the lock back. -/
theorem Sound.release (h : Sound hashThreadId s rank holder) (hCall : s.calls i = some pc)
    (hHeld : pc.holds = true) (pc' : Pc)
    (hStoring : ∀ t z value, some pc ≠ some (.storing t z value))
    (hCounted : pc'.counted = pc.counted) (hHolds : pc'.holds = false)
    (hInserts : pc.inserts = false) (hFits : pc'.Fits hashThreadId s rank i) :
    Sound hashThreadId
      ({ s with implicitProducerHashResizeInProgress := false }.setCall i (some pc')) rank
      none := by
  have hLive : live { s with calls := Function.update s.calls i (some pc') } = s.live :=
    live_same rfl rfl hCall hCounted
  have hHolder : holder = some i := (h.holds i).mp (by rw [hCall]; exact hHeld)
  refine h.pass hCall (some pc') s.implicitProducerHashCount false s.returned hStoring
    (fun _ _ => rfl) ?_ (.inl hInserts) (hLive ▸ h.count) (hLive ▸ h.ranked) rfl ?_ h.returned
  · intro pc₁ hEq
    cases hEq
    exact hFits
  · intro j
    rw [Function.update_apply]
    split
    · rw [Option.any_some, hHolds]
      exact ⟨(fun hEq => by cases hEq), (fun hEq => by cases hEq)⟩
    · next hNe =>
      rw [h.holds j, hHolder]
      exact ⟨fun hEq => absurd (Option.some.inj hEq).symm hNe, (fun hEq => by cases hEq)⟩

/-- The call is counted no more. -/
theorem Sound.uncount (h : Sound hashThreadId s rank holder) (hCall : s.calls i = some pc)
    (pc' : Pc) (hStoring : ∀ t z value, some pc ≠ some (.storing t z value))
    (hCounted : pc.counted = true) (hNot : pc'.counted = false) (hHolds : pc'.holds = pc.holds)
    (hInserts : pc.inserts = false) (hNone : i ∉ s.producers)
    (hFits : pc'.Fits hashThreadId s rank i) :
    Sound hashThreadId
      ({ s with implicitProducerHashCount := s.implicitProducerHashCount - 1 }.setCall i
        (some pc')) rank holder := by
  have hLive : live { s with calls := Function.update s.calls i (some pc') } = s.live.erase i := by
    ext j
    rw [Finset.mem_erase, mem_live, mem_live]
    dsimp only
    rw [Function.update_apply]
    split
    · next hEq =>
      subst hEq
      simp [hNone, hNot]
    · next hNe => simp [hNe]
  have hIn : i ∈ s.live := mem_live.mpr (.inr (by rw [hCall]; exact hCounted))
  refine h.pass hCall (some pc') (s.implicitProducerHashCount - 1)
    s.implicitProducerHashResizeInProgress s.returned hStoring (fun _ _ => rfl) ?_ (.inl hInserts)
    ?_ (hLive ▸ h.ranked.erase i) h.lock ?_ h.returned
  · intro pc₁ hEq
    cases hEq
    exact hFits
  · rw [hLive, Finset.card_erase_of_mem hIn, h.count]
  · intro j
    rw [any_update Pc.holds s.calls hCall (x := some pc') hHolds]
    exact h.holds j

/-- The call is counted. -/
theorem Sound.counted (h : Sound hashThreadId s rank holder) {m : Nat}
    (hCall : s.calls i = some (.counting m)) :
    Sound hashThreadId
      ({ s with implicitProducerHashCount := s.implicitProducerHashCount + 1 }.setCall i
        (some (.testing m (s.implicitProducerHashCount + 1))))
      (Function.update rank i (s.implicitProducerHashCount + 1)) holder := by
  obtain ⟨hm, hNone⟩ := h.fits i _ hCall
  have hNew : i ∉ s.live := by
    rw [mem_live, hCall]
    simp [hNone, Pc.counted]
  let pc' : Pc := .testing m (s.implicitProducerHashCount + 1)
  have hLive : live { s with calls := Function.update s.calls i (some pc') } =
      insert i s.live := by
    ext j
    rw [Finset.mem_insert, mem_live, mem_live]
    dsimp only
    rw [Function.update_apply]
    split
    · next hEq =>
      subst hEq
      simp [pc', Pc.counted]
    · next hNe => simp [hNe]
  refine h.pass hCall (some pc') (s.implicitProducerHashCount + 1)
    s.implicitProducerHashResizeInProgress s.returned ?_ ?_ ?_
    (.inl rfl) ?_ ?_ h.lock ?_ h.returned
  · intro t z value hEq
    cases hEq
  · intro j hj
    refine Function.update_of_ne ?_ ..
    rintro rfl
    rcases hj with hNe | hIn
    · exact hNe rfl
    · exact hNone hIn
  · intro pc₁ hEq
    cases hEq
    exact ⟨hm, hNone, Function.update_self ..⟩
  · rw [hLive, Finset.card_insert_of_notMem hNew, h.count]
  · rw [hLive, h.count]
    exact h.ranked.insert hNew
  · intro j
    rw [any_update Pc.holds s.calls hCall (x := some pc') rfl]
    exact h.holds j

-- ---------------------------------------------------------------------------
-- Tables
-- ---------------------------------------------------------------------------

/-- There is a free place in every table: the threads in it were counted while
it was less than three quarters full. -/
theorem Sound.room (h : Sound hashThreadId s rank holder) {t : Nat} (ht : t < s.made) :
    ∃ x, x < s.capacity t ∧ (s.tables t).key x = none := by
  have hPos := h.capacity_pos t ht
  refine (h.tables t ht).exists_free (s.live.filter fun j => rank j < s.threeQuarters t) ?_ ?_
  · intro x j hKey
    obtain ⟨hIn, hLess⟩ := h.listed t x j ht hKey
    exact Finset.mem_filter.mpr ⟨mem_live.mpr (.inl hIn), hLess⟩
  · cases hQuarters : s.threeQuarters t with
    | zero => simpa using hPos
    | succ q =>
      have hFew := h.ranked q
      have hSame : (s.live.filter fun j => rank j < q + 1) = s.live.filter fun j => rank j ≤ q :=
        Finset.filter_congr fun j _ => Nat.lt_succ_iff
      rw [hSame]
      unfold threeQuarters at hQuarters
      omega

/-- A search does not go round. -/
theorem Sound.search_lt (h : Sound hashThreadId s rank holder) {t n : Nat} (ht : t < s.made)
    (hSeen : Seen (s.tables t).key (s.capacity t) (hashThreadId i) i n) : n < s.capacity t := by
  obtain ⟨x, hx, hFree⟩ := h.room ht
  refine hSeen.lt hx fun k hKey => ?_
  rw [hFree] at hKey
  cases hKey

theorem Search.start (hashThreadId : Fin T → Nat) (s : ProducerHash T) (t : Nat) (i : Fin T) :
    Search hashThreadId s t (hashThreadId i % s.capacity t) i :=
  ⟨0, rfl, Seen.zero _ _ _ i⟩

theorem Search.next {t index : Nat} (h : Search hashThreadId s t index i) {j : Fin T}
    (hKey : (s.tables t).key index = some j) (hNe : j ≠ i) :
    Search hashThreadId s t ((index + 1) % s.capacity t) i := by
  obtain ⟨n, rfl, hSeen⟩ := h
  exact ⟨n + 1, probe_succ .., hSeen.succ hKey hNe⟩

/-- The call of thread `i` writes to a table. -/
theorem Sound.write (h : Sound hashThreadId s rank holder) (hCall : s.calls i = some pc)
    (tables' : Nat → ImplicitProducerHash T) (pc' : Pc)
    (hCapacity : ∀ t, (tables' t).capacity = (s.tables t).capacity)
    (hPrev : ∀ t, (tables' t).prev = (s.tables t).prev)
    (hTables : ∀ t, t < s.made → Addressed (tables' t).key (s.capacity t) hashThreadId)
    (hKeys : ∀ t x k, (s.tables t).key x = some k → (tables' t).key x = some k)
    (hNew : ∀ t x k, (tables' t).key x = some k → (s.tables t).key x = some k ∨
      (k = i ∧ i ∈ s.producers ∧ rank i < s.threeQuarters t))
    (hValues : ∀ t x k, t < s.made → (tables' t).key x = some k →
      (∀ value, Function.update s.calls i (some pc') k ≠ some (.storing t x value)) →
      ∃ p, (tables' t).value x = some p ∧ s.producers[p]? = some k)
    (hFound : pc.inserts = true → pc'.inserts = false →
      ∃ t x, t < s.made ∧ (tables' t).key x = some i)
    (hCounted : pc'.counted = pc.counted) (hHolds : pc'.holds = pc.holds)
    (hFits : pc'.Fits hashThreadId { s with tables := tables' } rank i) :
    Sound hashThreadId ({ s with tables := tables' }.setCall i (some pc')) rank holder where
  tables := by
    intro t ht
    show Addressed (tables' t).key (tables' t).capacity hashThreadId
    rw [hCapacity t]
    exact hTables t ht
  capacity_pos := by
    intro t ht
    show 0 < (tables' t).capacity
    rw [hCapacity t]
    exact h.capacity_pos t ht
  chain := fun t ht => (hPrev t).trans (h.chain t ht)
  newest := h.newest
  doubled := by
    intro t ht
    show 2 * (tables' t).capacity ≤ (tables' (t + 1)).capacity
    rw [hCapacity t, hCapacity (t + 1)]
    exact h.doubled t ht
  listed := by
    intro t x k ht hKey
    show k ∈ s.producers ∧ rank k < (tables' t).capacity / 2 + (tables' t).capacity / 4
    rw [hCapacity t]
    rcases hNew t x k hKey with hOld | ⟨rfl, hIn, hLess⟩
    · exact h.listed t x k ht hOld
    · exact ⟨hIn, hLess⟩
  values := hValues
  found := by
    intro j hj hNot
    replace hNot : (Function.update s.calls i (some pc') j).any Pc.inserts = false := hNot
    by_cases hOld : (s.calls j).any Pc.inserts = false
    · obtain ⟨t, x, ht, hKey⟩ := h.found j hj hOld
      exact ⟨t, x, ht, hKeys t x j hKey⟩
    · by_cases hEq : j = i
      · subst hEq
        rw [Function.update_self] at hNot
        rw [hCall, Option.any_some, Bool.not_eq_false] at hOld
        exact hFound hOld hNot
      · rw [Function.update_of_ne hEq] at hNot
        exact absurd hNot hOld
  nodup := h.nodup
  count := by
    have hLive : live ({ s with tables := tables' }.setCall i (some pc')) = s.live :=
      live_same rfl rfl hCall hCounted
    rw [hLive]
    exact h.count
  ranked := by
    have hLive : live ({ s with tables := tables' }.setCall i (some pc')) = s.live :=
      live_same rfl rfl hCall hCounted
    rw [hLive]
    exact h.ranked
  lock := h.lock
  holds := by
    intro j
    show (Function.update s.calls i (some pc') j).any Pc.holds = true ↔ _
    rw [any_update Pc.holds s.calls hCall (x := some pc') hHolds]
    exact h.holds j
  fits := by
    intro j pc₁ hj
    replace hj : Function.update s.calls i (some pc') j = some pc₁ := hj
    by_cases hEq : j = i
    · subst hEq
      rw [Function.update_self] at hj
      cases hj
      exact hFits
    · rw [Function.update_of_ne hEq] at hj
      refine (h.fits j pc₁ hj).mono le_rfl (fun _ => rfl) (fun t _ => hCapacity t)
        (fun t x k _ => hKeys t x k) ?_ (fun _ hp => hp) id rfl
      intro t x ht hKey
      rcases hNew t x j hKey with hOld | ⟨rfl, -⟩
      · exact ⟨ht, hOld⟩
      · exact absurd rfl hEq
  returned := h.returned

/-- The id of the thread goes into a free place. -/
theorem Sound.take (h : Sound hashThreadId s rank holder) {m x : Nat} {value : Option Nat}
    (hCall : s.calls i = some (.taking m x value)) (hFree : (s.tables m).key x = none) :
    Sound hashThreadId ((s.setKey m x i).setCall i (some (.storing m x value))) rank holder := by
  obtain ⟨⟨hm, ⟨p, hValue, hp⟩, hLess, hAbsent⟩, n, hIndex, hSeen⟩ := h.fits i _ hCall
  have hIn : i ∈ s.producers := List.mem_of_getElem? hp
  have hn := h.search_lt hm hSeen
  let table : ImplicitProducerHash T := { s.tables m with
    key := Function.update (s.tables m).key x (some i) }
  have hSame : ∀ {α : Type} (f : ImplicitProducerHash T → α), f table = f (s.tables m) →
      ∀ t, f (Function.update s.tables m table t) = f (s.tables t) := by
    intro α f hf t
    rw [Function.update_apply]
    split
    · next hEq => rw [hf, hEq]
    · rfl
  have hKey : ∀ t y, (Function.update s.tables m table t).key y =
      if t = m ∧ y = x then some i else (s.tables t).key y := by
    intro t y
    by_cases hEq : t = m
    · subst hEq
      rw [Function.update_self]
      show Function.update (s.tables t).key x (some i) y = _
      rw [Function.update_apply]
      simp only [true_and]
    · rw [Function.update_of_ne hEq, if_neg fun hBoth => hEq hBoth.1]
  refine h.write hCall (Function.update s.tables m table) (.storing m x value)
    (hSame ImplicitProducerHash.capacity rfl) (hSame ImplicitProducerHash.prev rfl) ?_ ?_ ?_ ?_ ?_
    rfl rfl ?_
  · intro t ht
    by_cases hEq : t = m
    · subst hEq
      rw [Function.update_self]
      have hInsert := (h.tables t ht).insert hSeen (hIndex ▸ hFree) hn
      rw [← hIndex] at hInsert
      exact hInsert
    · rw [Function.update_of_ne hEq]
      exact h.tables t ht
  · intro t y k hOld
    rw [hKey]
    split
    · next hBoth =>
      obtain ⟨rfl, rfl⟩ := hBoth
      rw [hFree] at hOld
      cases hOld
    · exact hOld
  · intro t y k hNow
    rw [hKey] at hNow
    split at hNow
    · next hBoth =>
      cases hNow
      exact .inr ⟨rfl, hIn, hBoth.1 ▸ hLess⟩
    · exact .inl hNow
  · intro t y k ht hNow hNot
    rw [hKey] at hNow
    split at hNow
    · next hBoth =>
      cases hNow
      obtain ⟨rfl, rfl⟩ := hBoth
      exact absurd (Function.update_self ..) (hNot value)
    · rw [hSame ImplicitProducerHash.value rfl]
      refine h.values t y k ht hNow fun v hAt => ?_
      by_cases hEq : k = i
      · subst hEq
        rw [hCall] at hAt
        cases hAt
      · exact hNot v ((Function.update_of_ne hEq ..).trans hAt)
  · intro _ _
    exact ⟨m, x, hm, by rw [hKey, if_pos ⟨rfl, rfl⟩]⟩
  · refine ⟨hm, ?_, p, hValue, hp⟩
    show (Function.update s.tables m table m).key x = some i
    rw [hKey, if_pos ⟨rfl, rfl⟩]

/-- The producer goes next to it. -/
theorem Sound.store (h : Sound hashThreadId s rank holder) {m x : Nat} {value : Option Nat}
    (hCall : s.calls i = some (.storing m x value)) :
    Sound hashThreadId ((s.setValue m x value).setCall i (some (.returning value))) rank
      holder := by
  obtain ⟨hm, hPlace, p, hValue, hp⟩ := h.fits i _ hCall
  let table : ImplicitProducerHash T := { s.tables m with
    value := Function.update (s.tables m).value x value }
  have hSame : ∀ {α : Type} (f : ImplicitProducerHash T → α), f table = f (s.tables m) →
      ∀ t, f (Function.update s.tables m table t) = f (s.tables t) := by
    intro α f hf t
    rw [Function.update_apply]
    split
    · next hEq => rw [hf, hEq]
    · rfl
  have hKeys := hSame ImplicitProducerHash.key rfl
  refine h.write hCall (Function.update s.tables m table) (.returning value)
    (hSame ImplicitProducerHash.capacity rfl) (hSame ImplicitProducerHash.prev rfl) ?_ ?_ ?_ ?_ ?_
    rfl rfl (.inl ⟨p, hValue, hp⟩)
  · intro t ht
    rw [hKeys t]
    exact h.tables t ht
  · intro t y k hOld
    rw [hKeys t]
    exact hOld
  · intro t y k hNow
    rw [hKeys t] at hNow
    exact .inl hNow
  · intro t y k ht hNow hNot
    rw [hKeys t] at hNow
    by_cases hHere : t = m ∧ y = x
    · obtain ⟨rfl, rfl⟩ := hHere
      obtain rfl : k = i := Option.some.inj (hNow.symm.trans hPlace)
      refine ⟨p, ?_, hp⟩
      rw [Function.update_self]
      exact (Function.update_self ..).trans hValue
    · have hOther : (Function.update s.tables m table t).value y = (s.tables t).value y := by
        rw [Function.update_apply]
        split
        · next hEq =>
          subst hEq
          exact Function.update_of_ne (fun hy => hHere ⟨rfl, hy⟩) ..
        · rfl
      rw [hOther]
      refine h.values t y k ht hNow fun v hAt => ?_
      by_cases hEq : k = i
      · subst hEq
        rw [hCall] at hAt
        cases hAt
        exact hHere ⟨rfl, rfl⟩
      · exact hNot v ((Function.update_of_ne hEq ..).trans hAt)
  · intro hInserts
    cases hInserts

/-- A new table is in front of the others. -/
theorem Sound.publish (h : Sound hashThreadId s rank holder) {m newCount newCapacity : Nat}
    (hCall : s.calls i = some (.publishing m newCount newCapacity)) :
    Sound hashThreadId ((s.publish m newCapacity).setCall i (some (.unlocking s.made newCount)))
      rank holder := by
  obtain ⟨hm, hNone, hRank, hBig⟩ := h.fits i _ hCall
  have hPos := h.capacity_pos m (by omega)
  have hHolder : holder = some i := (h.holds i).mp (by rw [hCall]; rfl)
  let table : ImplicitProducerHash T :=
    ⟨newCapacity, fun _ => none, fun _ => none, some m⟩
  have hOld : ∀ t, t < s.made → Function.update s.tables s.made table t = s.tables t :=
    fun t ht => Function.update_of_ne (Nat.ne_of_lt ht) ..
  have hMade : Function.update s.tables s.made table s.made = table := Function.update_self ..
  have hCapacity : ∀ t, t < s.made →
      (Function.update s.tables s.made table t).capacity = s.capacity t := by
    intro t ht
    rw [hOld t ht]
    rfl
  have hKeys : ∀ t x k, t < s.made + 1 →
      (Function.update s.tables s.made table t).key x = some k →
      t < s.made ∧ (s.tables t).key x = some k := by
    intro t x k ht hKey
    rcases Nat.lt_succ_iff_lt_or_eq.mp ht with hLt | rfl
    · rw [hOld t hLt] at hKey
      exact ⟨hLt, hKey⟩
    · rw [hMade] at hKey
      cases hKey
  have hLive : live ((s.publish m newCapacity).setCall i (some (.unlocking s.made newCount))) =
      s.live := live_same rfl rfl hCall rfl
  refine ⟨?_, ?_, ?_, rfl, ?_, ?_, ?_, ?_, h.nodup, ?_, ?_, h.lock, ?_, ?_, h.returned⟩
  · intro t ht
    show Addressed (Function.update s.tables s.made table t).key
      (Function.update s.tables s.made table t).capacity hashThreadId
    rcases Nat.lt_succ_iff_lt_or_eq.mp ht with hLt | rfl
    · rw [hOld t hLt]
      exact h.tables t hLt
    · rw [hMade]
      exact Addressed.empty newCapacity hashThreadId
  · intro t ht
    show 0 < (Function.update s.tables s.made table t).capacity
    rcases Nat.lt_succ_iff_lt_or_eq.mp ht with hLt | rfl
    · rw [hCapacity t hLt]
      exact h.capacity_pos t hLt
    · rw [hMade]
      show 0 < newCapacity
      omega
  · intro t ht
    show (Function.update s.tables s.made table t).prev = _
    rcases Nat.lt_succ_iff_lt_or_eq.mp ht with hLt | rfl
    · rw [hOld t hLt]
      exact h.chain t hLt
    · rw [hMade, if_neg (by omega)]
      show some m = _
      rw [← hm, Nat.add_sub_cancel]
  · intro t ht
    show 2 * (Function.update s.tables s.made table t).capacity ≤
      (Function.update s.tables s.made table (t + 1)).capacity
    replace ht : t + 1 < s.made + 1 := ht
    rw [hCapacity t (by omega)]
    rcases Nat.lt_succ_iff_lt_or_eq.mp ht with hLt | hEq
    · rw [hCapacity (t + 1) hLt]
      exact h.doubled t hLt
    · rw [hEq, hMade, show t = m by omega]
      exact hBig
  · intro t x j ht hKey
    obtain ⟨hLt, hKeyOld⟩ := hKeys t x j ht hKey
    show j ∈ s.producers ∧ rank j < (Function.update s.tables s.made table t).capacity / 2 +
      (Function.update s.tables s.made table t).capacity / 4
    rw [hCapacity t hLt]
    exact h.listed t x j hLt hKeyOld
  · intro t x j ht hKey hNot
    obtain ⟨hLt, hKeyOld⟩ := hKeys t x j ht hKey
    obtain ⟨p, hValue, hp⟩ := h.values t x j hLt hKeyOld (by
      intro value hAt
      by_cases hEq : j = i
      · subst hEq
        rw [hCall] at hAt
        cases hAt
      · exact hNot value ((Function.update_of_ne hEq ..).trans hAt))
    refine ⟨p, ?_, hp⟩
    show (Function.update s.tables s.made table t).value x = some p
    rw [hOld t hLt]
    exact hValue
  · intro j hj hNot
    replace hNot : (Function.update s.calls i (some (.unlocking s.made newCount)) j).any
      Pc.inserts = false := hNot
    rw [any_update Pc.inserts s.calls hCall (x := some (.unlocking s.made newCount)) rfl] at hNot
    obtain ⟨t, x, ht, hKey⟩ := h.found j hj hNot
    refine ⟨t, x, Nat.lt_succ_of_lt ht, ?_⟩
    show (Function.update s.tables s.made table t).key x = some j
    rw [hOld t ht]
    exact hKey
  · rw [hLive]
    exact h.count
  · rw [hLive]
    exact h.ranked
  · intro j
    show (Function.update s.calls i (some (.unlocking s.made newCount)) j).any Pc.holds = true ↔ _
    rw [any_update Pc.holds s.calls hCall (x := some (.unlocking s.made newCount)) rfl]
    exact h.holds j
  · intro j pc' hj
    replace hj : Function.update s.calls i (some (.unlocking s.made newCount)) j = some pc' := hj
    by_cases hEq : j = i
    · subst hEq
      rw [Function.update_self] at hj
      cases hj
      exact ⟨Nat.lt_succ_self s.made, hNone, hRank⟩
    · rw [Function.update_of_ne hEq] at hj
      refine (h.fits j pc' hj).mono (Nat.le_succ s.made) ?_ hCapacity ?_ (fun t x => hKeys t x j)
        (fun _ hp => hp) id rfl
      · intro hHolds
        have hOther : holder = some j := (h.holds j).mp (by rw [hj]; exact hHolds)
        exact absurd (Option.some.inj (hOther.symm.trans hHolder)) hEq
      · intro t x k ht hKey
        show (Function.update s.tables s.made table t).key x = some k
        rw [hOld t ht]
        exact hKey

/-- A producer is created. -/
theorem Sound.create (h : Sound hashThreadId s rank holder) {m newCount : Nat}
    (hCall : s.calls i = some (.creating m newCount)) :
    Sound hashThreadId
      ({ s with producers := s.producers ++ [i] }.setCall i
        (some (.inserting m (hashThreadId i) (some s.producers.length)))) rank holder := by
  obtain ⟨hm, hNone, hRank, hLess⟩ := h.fits i _ hCall
  have hAppend : ∀ (p : Nat) j, s.producers[p]? = some j →
      (s.producers ++ [i])[p]? = some j := by
    intro p j hp
    rw [List.getElem?_append_left (List.getElem?_eq_some_iff.mp hp).1, hp]
  let pc' : Pc := .inserting m (hashThreadId i) (some s.producers.length)
  have hLive : live ({ s with producers := s.producers ++ [i] }.setCall i (some pc')) =
      s.live := by
    ext j
    rw [mem_live, mem_live]
    show j ∈ s.producers ++ [i] ∨ (Function.update s.calls i (some pc') j).any Pc.counted = true ↔ _
    rw [List.mem_append, List.mem_singleton, Function.update_apply]
    split
    · next hEq => simp [hEq, hCall, Pc.counted]
    · next hNe => simp [hNe]
  refine ⟨h.tables, h.capacity_pos, h.chain, h.newest, h.doubled, ?_, ?_, ?_, ?_, ?_, ?_, h.lock,
    ?_, ?_, ?_⟩
  · intro t x j ht hKey
    obtain ⟨hIn, hSmall⟩ := h.listed t x j ht hKey
    exact ⟨List.mem_append_left _ hIn, hSmall⟩
  · intro t x j ht hKey hNot
    have hNe : j ≠ i := by
      rintro rfl
      exact hNone (h.listed t x j ht hKey).1
    obtain ⟨p, hValue, hp⟩ := h.values t x j ht hKey fun value hAt =>
      hNot value ((Function.update_of_ne hNe ..).trans hAt)
    exact ⟨p, hValue, hAppend p j hp⟩
  · intro j hj hNot
    replace hNot : (Function.update s.calls i (some pc') j).any Pc.inserts = false := hNot
    by_cases hEq : j = i
    · subst hEq
      rw [Function.update_self] at hNot
      cases hNot
    · rw [Function.update_of_ne hEq] at hNot
      refine h.found j ?_ hNot
      rcases List.mem_append.mp hj with hIn | hIn
      · exact hIn
      · exact absurd (List.mem_singleton.mp hIn) hEq
  · exact List.nodup_append.mpr ⟨h.nodup, List.nodup_singleton i, by
      intro j hj k hk hEq
      rw [List.mem_singleton] at hk
      subst hk hEq
      exact hNone hj⟩
  · show s.implicitProducerHashCount = _
    rw [hLive]
    exact h.count
  · rw [hLive]
    exact h.ranked
  · intro j
    show (Function.update s.calls i (some pc') j).any Pc.holds = true ↔ _
    rw [any_update Pc.holds s.calls hCall (x := some pc') rfl]
    exact h.holds j
  · intro j pc₁ hj
    replace hj : Function.update s.calls i (some pc') j = some pc₁ := hj
    by_cases hEq : j = i
    · subst hEq
      rw [Function.update_self] at hj
      rw [← Option.some.inj hj]
      refine ⟨⟨hm, ⟨_, rfl, List.getElem?_concat_length⟩, ?_, ?_⟩, Search.start ..⟩
      · rw [hRank]
        exact hLess
      · intro x hKey
        exact hNone (h.listed m x j hm hKey).1
    · rw [Function.update_of_ne hEq] at hj
      refine (h.fits j pc₁ hj).mono le_rfl (fun _ => rfl) (fun _ _ => rfl) (fun _ _ _ _ hk => hk)
        (fun _ _ ht hk => ⟨ht, hk⟩) (fun p => hAppend p j) ?_ rfl
      intro hNot hIn
      rcases List.mem_append.mp hIn with hOld | hNew
      · exact hNot hOld
      · exact hEq (List.mem_singleton.mp hNew)
  · intro j p hIn
    exact hAppend p j (h.returned j p hIn)

-- ---------------------------------------------------------------------------
-- Every run
-- ---------------------------------------------------------------------------

theorem Sound.call (h : Sound hashThreadId s rank holder) (hIdle : s.calls i = none) :
    Sound hashThreadId (s.setCall i (some .entered)) rank holder := by
  have hLive : live { s with calls := Function.update s.calls i (some .entered) } = s.live :=
    live_same rfl rfl hIdle rfl
  refine h.pass hIdle (some .entered) s.implicitProducerHashCount
    s.implicitProducerHashResizeInProgress s.returned ?_ (fun _ _ => rfl) ?_ (.inl rfl)
    (hLive ▸ h.count) (hLive ▸ h.ranked) h.lock ?_ h.returned
  · intro t z value hEq
    cases hEq
  · intro pc' hEq
    cases hEq
    trivial
  · intro j
    rw [any_update Pc.holds s.calls hIdle (x := some .entered) rfl]
    exact h.holds j

theorem Sound.ret (h : Sound hashThreadId s rank holder) {value : Option Nat}
    (hCall : s.calls i = some (.returning value)) :
    Sound hashThreadId { s.setCall i none with returned := s.returned ++ [(i, value)] } rank
      holder := by
  have hLive : live { s with calls := Function.update s.calls i none } = s.live :=
    live_same rfl rfl hCall rfl
  have hValue := h.fits i _ hCall
  refine h.pass hCall none s.implicitProducerHashCount s.implicitProducerHashResizeInProgress
    (s.returned ++ [(i, value)]) ?_ (fun _ _ => rfl) ?_ (.inl rfl) (hLive ▸ h.count)
    (hLive ▸ h.ranked) h.lock ?_ ?_
  · intro t z value' hEq
    cases hEq
  · intro pc' hEq
    cases hEq
  · intro j
    rw [any_update Pc.holds s.calls hCall (x := none) rfl]
    exact h.holds j
  · intro j p hIn
    rcases List.mem_append.mp hIn with hOld | hNew
    · exact h.returned j p hOld
    · cases List.mem_singleton.mp hNew
      rcases hValue with ⟨p', hEq, hp⟩ | ⟨hEq, -⟩
      · cases hEq
        exact hp
      · cases hEq

theorem settle_fits {m newCount : Nat} (hm : m < s.made) (hNone : i ∉ s.producers)
    (hRank : rank i = newCount) :
    (s.settle m newCount).Fits hashThreadId s rank i ∧ (s.settle m newCount).counted = true ∧
      (s.settle m newCount).holds = false ∧ (s.settle m newCount).inserts = false := by
  unfold ProducerHash.settle
  split
  · next hLess => exact ⟨⟨hm, hNone, hRank, hLess⟩, rfl, rfl, rfl⟩
  · exact ⟨⟨hNone, hRank⟩, rfl, rfl, rfl⟩

theorem Sound.capacity_mono (h : Sound hashThreadId s rank holder) {t m : Nat} (hLe : t ≤ m)
    (hm : m < s.made) : s.capacity t ≤ s.capacity m := by
  induction m, hLe using Nat.le_induction with
  | base => exact le_rfl
  | succ m hLe ih =>
    have hDoubled := h.doubled m hm
    have hBefore := ih (Nat.lt_of_succ_lt hm)
    omega

/-- A call that has not come to the id yet looks at the next key. -/
theorem Sound.probe (h : Sound hashThreadId s rank holder) {m t index : Nat}
    (hCall : s.calls i = some (.probing m t index)) {s₁ : ProducerHash T} {pc' : Pc}
    (hStep : stepCall hashThreadId s i (.probing m t index) = some (s₁, pc')) :
    Sound hashThreadId (s₁.setCall i (some pc')) rank holder := by
  obtain ⟨hLe, hm, hAbsent, hSearch⟩ := h.fits i _ hCall
  have ht : t < s.made := hLe.trans_lt hm
  have hLook : ∀ {pc' : Pc}, pc'.counted = false → pc'.holds = false →
      pc'.Fits hashThreadId s rank i → Sound hashThreadId (s.setCall i (some pc')) rank holder :=
    fun hCounted hHolds hFits => h.look hCall _ (fun _ _ _ hEq => by cases hEq) hCounted hHolds
      (.inl rfl) hFits
  simp only [stepCall, Option.some.injEq, Prod.mk.injEq] at hStep
  obtain ⟨rfl, rfl⟩ := hStep
  cases hKey : (s.tables t).key (index % s.capacity t) with
  | some j =>
    dsimp only
    split
    · next hEq =>
      subst hEq
      obtain ⟨p, hValue, hp⟩ := h.values t _ j ht hKey fun value hAt => by
        rw [hCall] at hAt
        cases hAt
      split
      · exact hLook rfl rfl (.inl ⟨p, hValue, hp⟩)
      · next hNe =>
        have hLess := (h.listed t _ j ht hKey).2
        have hCapacity := h.capacity_mono hLe hm
        refine hLook rfl rfl ⟨⟨hm, ⟨p, hValue, hp⟩, hLess.trans_le ?_, fun x =>
          hAbsent m x (by omega) hm⟩, Search.start ..⟩
        unfold threeQuarters
        omega
    · next hNe =>
      exact hLook rfl rfl ⟨hLe, hm, hAbsent, hSearch.next hKey hNe⟩
  | none =>
    obtain ⟨n, hIndex, hSeen⟩ := hSearch
    rw [hIndex] at hKey
    have hHere := (h.tables t ht).absent hSeen hKey
    dsimp only
    rw [h.chain t ht]
    split
    · next prev hPrev =>
      split at hPrev
      · cases hPrev
      · cases hPrev
        refine hLook rfl rfl ⟨by omega, hm, ?_, Search.start ..⟩
        intro u x hu hu' hx
        by_cases hEq : u = t
        · subst hEq
          exact hHere x hx
        · exact hAbsent u x (by omega) hu' hx
    · next hPrev =>
      split at hPrev
      · next hZero =>
        -- the id is in no table, so the thread has no producer
        refine hLook rfl rfl ⟨hm, fun hIn => ?_⟩
        obtain ⟨u, x, hu, hx⟩ := h.found i hIn (by rw [hCall]; rfl)
        by_cases hEq : u = t
        · subst hEq
          exact hHere x hx
        · exact hAbsent u x (by omega) hu hx
      · cases hPrev

theorem Sound.access (h : Sound hashThreadId s rank holder) (hCall : s.calls i = some pc)
    {s₁ : ProducerHash T} {pc' : Pc} (hStep : stepCall hashThreadId s i pc = some (s₁, pc')) :
    ∃ rank' holder', Sound hashThreadId (s₁.setCall i (some pc')) rank' holder' := by
  have hFits := h.fits i pc hCall
  have hNewest := h.newest
  cases pc with
  | entered =>
    cases hStep
    refine ⟨rank, holder, h.look hCall _ (fun _ _ _ hEq => by cases hEq) rfl rfl (.inl rfl)
      ⟨le_rfl, by omega, ?_, Search.start ..⟩⟩
    intro u x hu hu'
    omega
  | probing m t index => exact ⟨rank, holder, h.probe hCall hStep⟩
  | inserting m index value =>
    obtain ⟨hGoes, hSearch⟩ := hFits
    cases hStep
    split
    · exact ⟨rank, holder, h.look hCall _ (fun _ _ _ hEq => by cases hEq) rfl rfl (.inr rfl)
        ⟨hGoes, hSearch⟩⟩
    · next hTaken =>
      obtain ⟨j, hKey⟩ := Option.ne_none_iff_exists'.mp hTaken
      refine ⟨rank, holder, h.look hCall _ (fun _ _ _ hEq => by cases hEq) rfl rfl (.inr rfl)
        ⟨hGoes, hSearch.next hKey ?_⟩⟩
      rintro rfl
      exact hGoes.2.2.2 _ hKey
  | taking m index value =>
    obtain ⟨hGoes, hSearch⟩ := hFits
    simp only [stepCall] at hStep
    split at hStep
    · next hFree =>
      cases hStep
      exact ⟨rank, holder, h.take hCall hFree⟩
    · next hTaken =>
      cases hStep
      obtain ⟨j, hKey⟩ := Option.ne_none_iff_exists'.mp hTaken
      refine ⟨rank, holder, h.look hCall _ (fun _ _ _ hEq => by cases hEq) rfl rfl (.inr rfl)
        ⟨hGoes, hSearch.next hKey ?_⟩⟩
      rintro rfl
      exact hGoes.2.2.2 _ hKey
  | storing m index value =>
    cases hStep
    exact ⟨rank, holder, h.store hCall⟩
  | counting m =>
    cases hStep
    exact ⟨_, holder, h.counted hCall⟩
  | testing m newCount =>
    obtain ⟨hm, hNone, hRank⟩ := hFits
    simp only [stepCall] at hStep
    split at hStep
    · next hTest =>
      cases hStep
      exact ⟨rank, some i, h.acquire hCall hTest.2 _ (fun _ _ _ hEq => by cases hEq) rfl rfl rfl
        ⟨hNone, hRank⟩⟩
    · cases hStep
      obtain ⟨hSettled, hCounted, hHolds, -⟩ := settle_fits hm hNone hRank
      exact ⟨rank, holder, h.look hCall _ (fun _ _ _ hEq => by cases hEq) hCounted hHolds
        (.inl rfl) hSettled⟩
  | locked newCount =>
    obtain ⟨hNone, hRank⟩ := hFits
    cases hStep
    split
    · exact ⟨rank, holder, h.look hCall _ (fun _ _ _ hEq => by cases hEq) rfl rfl (.inl rfl)
        ⟨hNewest, hNone, hRank⟩⟩
    · exact ⟨rank, holder, h.look hCall _ (fun _ _ _ hEq => by cases hEq) rfl rfl (.inl rfl)
        ⟨by omega, hNone, hRank⟩⟩
  | publishing m newCount newCapacity =>
    cases hStep
    exact ⟨rank, holder, h.publish hCall⟩
  | unlocking m newCount =>
    obtain ⟨hm, hNone, hRank⟩ := hFits
    cases hStep
    obtain ⟨hSettled, hCounted, hHolds, -⟩ := settle_fits hm hNone hRank
    exact ⟨rank, none, h.release hCall rfl _ (fun _ _ _ hEq => by cases hEq) hCounted hHolds rfl
      hSettled⟩
  | refused =>
    cases hStep
    exact ⟨rank, holder, h.uncount hCall _ (fun _ _ _ hEq => by cases hEq) rfl rfl rfl rfl hFits
      hFits⟩
  | releasing =>
    cases hStep
    exact ⟨rank, none, h.release hCall rfl _ (fun _ _ _ hEq => by cases hEq) rfl rfl rfl
      (.inr ⟨rfl, hFits⟩)⟩
  | undoing =>
    cases hStep
    exact ⟨rank, holder, h.uncount hCall _ (fun _ _ _ hEq => by cases hEq) rfl rfl rfl rfl hFits
      (.inr ⟨rfl, hFits⟩)⟩
  | waiting newCount =>
    obtain ⟨hNone, hRank⟩ := hFits
    cases hStep
    exact ⟨rank, holder, h.look hCall _ (fun _ _ _ hEq => by cases hEq) rfl rfl (.inl rfl)
      ⟨by omega, hNone, hRank⟩⟩
  | allocating | creating | returning => cases hStep

theorem le_grow (newCount fuel newCapacity : Nat) :
    newCapacity ≤ grow newCount fuel newCapacity := by
  induction fuel generalizing newCapacity with
  | zero => exact le_rfl
  | succ fuel ih =>
    unfold grow
    split
    · have hMore := ih (2 * newCapacity)
      omega
    · exact le_rfl

theorem Sound.step (h : Sound hashThreadId s rank holder) {l : Label T}
    (hStep : step hashThreadId s l = some s') :
    ∃ rank' holder', Sound hashThreadId s' rank' holder' := by
  cases l with
  | call i =>
    simp only [ProducerHash.step] at hStep
    split at hStep
    · next hIdle =>
      cases hStep
      exact ⟨rank, holder, h.call hIdle⟩
    · cases hStep
  | step i =>
    simp only [ProducerHash.step] at hStep
    split at hStep
    · next pc hCall =>
      obtain ⟨⟨s₁, pc'⟩, hAccess, rfl⟩ := Option.map_eq_some_iff.mp hStep
      exact h.access hCall hAccess
    · cases hStep
  | allocate i ok =>
    simp only [ProducerHash.step] at hStep
    split at hStep
    · next m newCount hCall =>
      obtain ⟨hm, hNone, hRank⟩ := h.fits i _ hCall
      cases hStep
      cases ok with
      | true =>
        exact ⟨rank, holder, h.look hCall _ (fun _ _ _ hEq => by cases hEq) rfl rfl (.inl rfl)
          ⟨hm, hNone, hRank, le_grow ..⟩⟩
      | false =>
        exact ⟨rank, holder, h.look hCall _ (fun _ _ _ hEq => by cases hEq) rfl rfl (.inl rfl)
          hNone⟩
    · cases hStep
  | create i ok =>
    simp only [ProducerHash.step] at hStep
    split at hStep
    · next m newCount hCall =>
      cases ok with
      | true =>
        cases hStep
        exact ⟨rank, holder, h.create hCall⟩
      | false =>
        cases hStep
        exact ⟨rank, holder, h.look hCall _ (fun _ _ _ hEq => by cases hEq) rfl rfl (.inl rfl)
          (h.fits i _ hCall).2.1⟩
    · cases hStep
  | ret i =>
    simp only [ProducerHash.step] at hStep
    split at hStep
    · next value hCall =>
      cases hStep
      exact ⟨rank, holder, h.ret hCall⟩
    · cases hStep

theorem sound_of_reachable {initialSize : Nat} (hSize : 0 < initialSize)
    (hReachable : (system T hashThreadId initialSize).Reachable s) :
    ∃ rank holder, Sound hashThreadId s rank holder :=
  hReachable.induction (P := fun s => ∃ rank holder, Sound hashThreadId s rank holder)
    ⟨_, _, Sound.init hashThreadId hSize⟩ fun _ _ _ _ ⟨_, _, h⟩ hStep => h.step hStep

/-- **Every table keeps a free entry.** In every run, whatever threads are
turned away by `malloc` meanwhile, so no search goes round for ever. -/
theorem free_entry {initialSize : Nat} (hSize : 0 < initialSize)
    (h : (system T hashThreadId initialSize).Reachable s) {t : Nat} (ht : t < s.made) :
    ∃ x, x < s.capacity t ∧ (s.tables t).key x = none := by
  obtain ⟨rank, holder, hSound⟩ := sound_of_reachable hSize h
  exact hSound.room ht

/-- **Nothing is left behind.** In every run, when no call is under way, the
count is the number of producers, nobody keeps others from making a table, and
every producer is in a table under its thread: failures have been taken back. -/
theorem at_rest {initialSize : Nat} (hSize : 0 < initialSize)
    (h : (system T hashThreadId initialSize).Reachable s) (hRest : ∀ i, s.calls i = none) :
    s.implicitProducerHashCount = s.producers.length ∧
      s.implicitProducerHashResizeInProgress = false ∧
      ∀ p i, s.producers[p]? = some i → ∃ t x, t < s.made ∧ (s.tables t).key x = some i ∧
        (s.tables t).value x = some p := by
  obtain ⟨rank, holder, hSound⟩ := sound_of_reachable hSize h
  refine ⟨?_, ?_, ?_⟩
  · have hLive : s.live = s.producers.toFinset := by
      ext i
      rw [mem_live, hRest i, List.mem_toFinset]
      simp
    rw [hSound.count, hLive, List.toFinset_card_of_nodup hSound.nodup]
  · rw [hSound.lock]
    cases holder with
    | none => rfl
    | some i =>
      have hHolds := (hSound.holds i).mpr rfl
      rw [hRest i] at hHolds
      cases hHolds
  · intro p i hp
    obtain ⟨t, x, ht, hKey⟩ := hSound.found i (List.mem_of_getElem? hp) (by rw [hRest i]; rfl)
    obtain ⟨q, hValue, hq⟩ := hSound.values t x i ht hKey fun value hAt => by
      rw [hRest i] at hAt
      cases hAt
    obtain rfl : p = q := (List.getElem?_inj (List.getElem?_eq_some_iff.mp hp).1 hSound.nodup).mp
      (hp.trans hq.symm)
    exact ⟨t, x, ht, hKey, hValue⟩

/-- **A producer has one thread.** In every run no thread has two producers
created for it, and two calls get the same producer if and only if they are
calls of the same thread. -/
theorem own_producer {initialSize : Nat} (hSize : 0 < initialSize)
    (h : (system T hashThreadId initialSize).Reachable s) :
    s.producers.Nodup ∧ ∀ i j p q, (i, some p) ∈ s.returned → (j, some q) ∈ s.returned →
      (p = q ↔ i = j) := by
  obtain ⟨rank, holder, hSound⟩ := sound_of_reachable hSize h
  refine ⟨hSound.nodup, fun i j p q hi hj => ?_⟩
  have hp := hSound.returned i p hi
  have hq := hSound.returned j q hj
  constructor
  · rintro rfl
    exact Option.some.inj (hp.symm.trans hq)
  · rintro rfl
    exact (List.getElem?_inj (List.getElem?_eq_some_iff.mp hp).1 hSound.nodup).mp
      (hp.trans hq.symm)

/-- Two threads get producers, and the second makes a new table for itself. -/
def addTwo : List (Label 2) :=
  List.flatten [.call Process.first :: List.replicate 4 (.step Process.first),
    .create Process.first true :: List.replicate 3 (.step Process.first), [.ret Process.first],
    .call Process.second :: List.replicate 5 (.step Process.second),
    .allocate Process.second true :: List.replicate 2 (.step Process.second),
    .create Process.second true :: List.replicate 3 (.step Process.second),
    [.ret Process.second]]

def twoAdded : ProducerHash 2 :=
  ((system 2 Fin.val 4).run (system 2 Fin.val 4).init addTwo).get (by decide +kernel)

theorem free_entry_addTwo : ∃ x, x < twoAdded.capacity 1 ∧ (twoAdded.tables 1).key x = none :=
  free_entry (s := twoAdded) (by decide) (System.Reachable.get (M := system 2 Fin.val 4) addTwo
    (by decide +kernel)) (t := 1) (by decide +kernel)

theorem at_rest_addTwo : twoAdded.implicitProducerHashCount = twoAdded.producers.length :=
  (at_rest (s := twoAdded) (by decide) (System.Reachable.get (M := system 2 Fin.val 4) addTwo
    (by decide +kernel)) (by decide +kernel)).1

theorem own_producer_addTwo : (0 = 1 ↔ Process.first = Process.second) :=
  (own_producer (s := twoAdded) (by decide) (System.Reachable.get (M := system 2 Fin.val 4) addTwo
    (by decide +kernel))).2 _ _ _ _ (by decide +kernel) (by decide +kernel)

end ProducerHash

end ThreadPool.Model
