import ThreadPool.Model.Producers

/-!
# ThreadPool — looking up a producer

What a thread may expect of `get_or_add_implicit_producer`, whatever the other
threads do meanwhile.

* `lookup_wait_free` — a thread that has a producer gets it without waiting;
* `fails_without_memory` — only memory can be the reason of a failure.
-/

namespace ThreadPool.Model

open ThreadPool.Lib

namespace ProducerHash

variable {T : Nat} {hashThreadId : Fin T → Nat} {s s₁ s' : ProducerHash T} {i : Fin T}
  {pc pc' : Pc} {rank : Fin T → Nat} {holder : Option (Fin T)}

-- ---------------------------------------------------------------------------
-- The steps of others
-- ---------------------------------------------------------------------------

/-- The thread that takes a step. -/
def Label.thread : Label T → Fin T
  | .call i => i
  | .step i => i
  | .allocate i _ => i
  | .create i _ => i
  | .ret i => i

/-- What no step of thread `i` changes. -/
structure Frame (s s' : ProducerHash T) (i : Fin T) : Prop where
  calls : ∀ j, i ≠ j → s'.calls j = s.calls j
  made : s.made ≤ s'.made
  capacity : ∀ t, t < s.made → s'.capacity t = s.capacity t
  producers : s.producers ⊆ s'.producers
  returned : ∀ j value, i ≠ j → (j, value) ∈ s'.returned → (j, value) ∈ s.returned

theorem Frame.setCall (s : ProducerHash T) (i : Fin T) (x : Option Pc) :
    Frame s (s.setCall i x) i where
  calls := fun _ hNe => Function.update_of_ne hNe.symm ..
  made := le_rfl
  capacity := fun _ _ => rfl
  producers := List.Subset.refl _
  returned := fun _ _ _ hIn => hIn

theorem Frame.trans {s₀ : ProducerHash T} (h₀ : Frame s₀ s i) (h : Frame s s' i) :
    Frame s₀ s' i where
  calls := fun j hNe => (h.calls j hNe).trans (h₀.calls j hNe)
  made := h₀.made.trans h.made
  capacity := fun t ht => (h.capacity t (ht.trans_le h₀.made)).trans (h₀.capacity t ht)
  producers := List.Subset.trans h₀.producers h.producers
  returned := fun j value hNe hIn => h₀.returned j value hNe (h.returned j value hNe hIn)

theorem stepCall_frame (h : stepCall hashThreadId s i pc = some (s₁, pc')) :
    Frame s s₁ i ∧ s₁.returned = s.returned := by
  have hSame : ∀ count resizing, Frame s { s with
      implicitProducerHashCount := count
      implicitProducerHashResizeInProgress := resizing } i ∧ s.returned = s.returned := fun _ _ =>
    ⟨⟨fun _ _ => rfl, le_rfl, fun _ _ => rfl, List.Subset.refl _, fun _ _ _ hIn => hIn⟩, rfl⟩
  have hWrite : ∀ m table, table.capacity = s.capacity m → Frame s { s with
      tables := Function.update s.tables m table } i ∧ s.returned = s.returned := by
    intro m table hCapacity
    refine ⟨⟨fun _ _ => rfl, le_rfl, fun t _ => ?_, List.Subset.refl _, fun _ _ _ hIn => hIn⟩, rfl⟩
    show (Function.update s.tables m table t).capacity = (s.tables t).capacity
    rw [Function.update_apply]
    split
    · next hEq => rw [hCapacity, hEq, capacity]
    · rfl
  cases pc with
  | entered | probing | inserting | locked | waiting =>
    cases h
    exact hSame ..
  | taking m index value =>
    simp only [stepCall] at h
    split at h
    · cases h
      exact hWrite _ _ rfl
    · cases h
      exact hSame ..
  | storing m index value =>
    cases h
    exact hWrite _ _ rfl
  | counting | unlocking | refused | releasing | undoing =>
    cases h
    exact hSame ..
  | testing m newCount =>
    simp only [stepCall] at h
    split at h
    · cases h
      exact hSame ..
    · cases h
      exact hSame ..
  | publishing m newCount newCapacity =>
    cases h
    refine ⟨⟨fun _ _ => rfl, Nat.le_succ _, fun t ht => ?_, List.Subset.refl _,
      fun _ _ _ hIn => hIn⟩, rfl⟩
    show (Function.update s.tables s.made _ t).capacity = (s.tables t).capacity
    rw [Function.update_of_ne (Nat.ne_of_lt ht)]
  | allocating | creating | returning => cases h

theorem step_frame {l : Label T} (h : step hashThreadId s l = some s') : Frame s s' l.thread := by
  cases l with
  | call i =>
    simp only [step] at h
    split at h
    · cases h
      exact .setCall ..
    · cases h
  | step i =>
    simp only [step] at h
    split at h
    · next pc hCall =>
      obtain ⟨⟨s₁, pc'⟩, hAccess, rfl⟩ := Option.map_eq_some_iff.mp h
      exact (stepCall_frame hAccess).1.trans (.setCall ..)
    · cases h
  | allocate i ok =>
    simp only [step] at h
    split at h
    · cases h
      exact .setCall ..
    · cases h
  | create i ok =>
    simp only [step] at h
    split at h
    · split at h
      · cases h
        have hMore : Frame s { s with producers := s.producers ++ [i] } i :=
          ⟨fun _ _ => rfl, le_rfl, fun _ _ => rfl, List.subset_append_left ..,
            fun _ _ _ hIn => hIn⟩
        exact hMore.trans (.setCall ..)
      · cases h
        exact .setCall ..
    · cases h
  | ret i =>
    simp only [step] at h
    split at h
    · next value hCall =>
      cases h
      refine (Frame.setCall s i none).trans ⟨fun _ _ => rfl, le_rfl, fun _ _ => rfl,
        List.Subset.refl _, fun j value' hNe hIn => ?_⟩
      rcases List.mem_append.mp hIn with hOld | hNew
      · exact hOld
      · cases List.mem_singleton.mp hNew
        exact absurd rfl hNe
    · cases h

-- ---------------------------------------------------------------------------
-- How much is left
-- ---------------------------------------------------------------------------

/-- The call looks for a producer that there is, or has it. -/
def Pc.looks : Pc → Bool
  | .probing _ _ _ => true
  | .inserting _ _ _ => true
  | .taking _ _ _ => true
  | .storing _ _ _ => true
  | .returning _ => true
  | _ => false

/-- The number of accesses that such a call has left at most. The tables before
table `t` are not larger than it together, and a place of table `m` takes two
accesses. -/
def Pc.left (hashThreadId : Fin T → Nat) (s : ProducerHash T) (i : Fin T) : Pc → Nat
  | .probing m t index =>
    2 * s.capacity t - position (s.capacity t) (hashThreadId i) (index % s.capacity t) +
      2 * s.capacity m + 1
  | .inserting m index _ =>
    2 * (s.capacity m - position (s.capacity m) (hashThreadId i) (index % s.capacity m)) + 1
  | .taking m index _ =>
    2 * (s.capacity m - position (s.capacity m) (hashThreadId i) index)
  | .storing _ _ _ => 1
  | _ => 0

theorem Sound.position_next (h : Sound hashThreadId s rank holder) {t index : Nat}
    (ht : t < s.made) (hSearch : Search hashThreadId s t index i) {j : Fin T}
    (hKey : (s.tables t).key index = some j) (hNe : j ≠ i) :
    position (s.capacity t) (hashThreadId i) ((index + 1) % s.capacity t) =
      position (s.capacity t) (hashThreadId i) index + 1 := by
  obtain ⟨n, rfl, hSeen⟩ := hSearch
  have hNext := hSeen.succ hKey hNe
  rw [probe_succ, position_probe _ (h.search_lt ht hSeen), position_probe _ (h.search_lt ht hNext)]

/-- Where the call of a thread that has a producer can be. -/
theorem Sound.looks (h : Sound hashThreadId s rank holder) (hHas : i ∈ s.producers)
    (hCall : s.calls i = some pc) :
    pc = .entered ∨ pc.looks = true := by
  have hFits := h.fits i pc hCall
  cases pc with
  | entered => exact .inl rfl
  | probing | inserting | taking | storing | returning => exact .inr rfl
  | counting => exact absurd hHas hFits.2
  | testing | allocating | publishing | unlocking | creating => exact absurd hHas hFits.2.1
  | locked | waiting => exact absurd hHas hFits.1
  | refused | releasing | undoing => exact absurd hHas hFits

theorem Sound.left_step (h : Sound hashThreadId s rank holder) (hHas : i ∈ s.producers)
    (hCall : s.calls i = some pc) (hLooks : pc.looks = true)
    (hStep : stepCall hashThreadId s i pc = some (s₁, pc')) :
    pc'.looks = true ∧ pc'.left hashThreadId s₁ i + 1 ≤ pc.left hashThreadId s i := by
  have hFits := h.fits i pc hCall
  have hFrame := (stepCall_frame hStep).1
  obtain ⟨rank', holder', hSound'⟩ := h.access hCall hStep
  have hLooks' := (hSound'.looks (hFrame.producers hHas) (Function.update_self ..)).resolve_left
  cases pc with
  | probing m t index =>
    obtain ⟨hLe, hm, -, hSearch⟩ := hFits
    have ht : t < s.made := hLe.trans_lt hm
    have hPos := position_lt (h.capacity_pos t ht) (hashThreadId i) (index % s.capacity t)
    simp only [stepCall, Option.some.injEq, Prod.mk.injEq] at hStep
    obtain ⟨rfl, rfl⟩ := hStep
    cases hKey : (s.tables t).key (index % s.capacity t) with
    | some j =>
      simp only [hKey] at hLooks' ⊢
      split
      · split
        · refine ⟨rfl, ?_⟩
          simp only [Pc.left]
          omega
        · refine ⟨rfl, ?_⟩
          simp only [Pc.left]
          omega
      · next hNe =>
        have hNext := h.position_next ht hSearch hKey hNe
        refine ⟨rfl, ?_⟩
        simp only [Pc.left]
        omega
    | none =>
      simp only [hKey, h.chain t ht] at hLooks' ⊢
      split
      · next prev hPrev =>
        split at hPrev
        · cases hPrev
        · cases hPrev
          have hDoubled := h.doubled (t - 1) (by omega)
          rw [show t - 1 + 1 = t by omega] at hDoubled
          refine ⟨rfl, ?_⟩
          simp only [Pc.left]
          omega
      · next hPrev =>
        rw [hPrev] at hLooks'
        cases hLooks' (fun hEq => by cases hEq)
  | inserting m index value =>
    obtain ⟨⟨hm, -, -, hAbsent⟩, hSearch⟩ := hFits
    have hPos := position_lt (h.capacity_pos m hm) (hashThreadId i) (index % s.capacity m)
    cases hStep
    split
    · refine ⟨rfl, ?_⟩
      simp only [Pc.left]
      omega
    · next hTaken =>
      obtain ⟨j, hKey⟩ := Option.ne_none_iff_exists'.mp hTaken
      have hNext := h.position_next hm hSearch hKey (by rintro rfl; exact hAbsent _ hKey)
      refine ⟨rfl, ?_⟩
      simp only [Pc.left]
      omega
  | taking m index value =>
    obtain ⟨⟨hm, -, -, hAbsent⟩, hSearch⟩ := hFits
    have hPos := position_lt (h.capacity_pos m hm) (hashThreadId i) index
    simp only [stepCall] at hStep
    split at hStep
    · cases hStep
      refine ⟨rfl, ?_⟩
      simp only [Pc.left]
      omega
    · next hTaken =>
      cases hStep
      obtain ⟨j, hKey⟩ := Option.ne_none_iff_exists'.mp hTaken
      have hNext := h.position_next hm hSearch hKey (by rintro rfl; exact hAbsent _ hKey)
      refine ⟨rfl, ?_⟩
      simp only [Pc.left]
      omega
  | storing m index value =>
    cases hStep
    exact ⟨rfl, le_rfl⟩
  | returning => cases hStep
  | _ => cases hLooks

theorem Pc.left_frame (hFits : pc.Fits hashThreadId s rank i)
    (hCapacity : ∀ t, t < s.made → s'.capacity t = s.capacity t) :
    pc.left hashThreadId s' i = pc.left hashThreadId s i := by
  cases pc with
  | probing m t index =>
    obtain ⟨hLe, hm, -⟩ := hFits
    simp only [Pc.left]
    rw [hCapacity t (hLe.trans_lt hm), hCapacity m hm]
  | inserting m index value | taking m index value =>
    simp only [Pc.left]
    rw [hCapacity m hFits.1.1]
  | _ => rfl

-- ---------------------------------------------------------------------------
-- Results
-- ---------------------------------------------------------------------------

/-- Whether a step is an access of thread `i`. -/
def Label.accessOf (i : Fin T) : Label T → Bool
  | .step j => j = i
  | _ => false

/-- The number of accesses that the call of thread `i` has left. -/
def left (hashThreadId : Fin T → Nat) (i : Fin T) (s : ProducerHash T) : Nat :=
  match s.calls i with
  | some pc => pc.left hashThreadId s i
  | none => 0

theorem left_eq (hCall : s.calls i = some pc) :
    left hashThreadId i s = pc.left hashThreadId s i := by
  rw [left, hCall]

theorem stepCall_of_looks (hashThreadId : Fin T → Nat) (s : ProducerHash T) (i : Fin T)
    (hLooks : pc.looks = true) (hNot : ∀ value, pc ≠ .returning value) :
    ∃ r, stepCall hashThreadId s i pc = some r := by
  cases pc with
  | probing | inserting | storing => exact ⟨_, rfl⟩
  | taking m index value =>
    simp only [stepCall]
    split
    · exact ⟨_, rfl⟩
    · exact ⟨_, rfl⟩
  | returning value => exact absurd rfl (hNot value)
  | _ => cases hLooks

/-- A step of any thread while thread `i` looks for its producer. -/
theorem Sound.left_le (h : Sound hashThreadId s rank holder) (hHas : i ∈ s.producers)
    (hCall : s.calls i = some pc) (hLooks : pc.looks = true) {l : Label T} (hNoRet : l ≠ .ret i)
    (hStep : ProducerHash.step hashThreadId s l = some s') :
    (∃ pc', s'.calls i = some pc' ∧ pc'.looks = true) ∧
      left hashThreadId i s' + (if l.accessOf i then 1 else 0) ≤ left hashThreadId i s := by
  have hFrame := step_frame hStep
  rw [left_eq hCall]
  by_cases hOwn : l.thread = i
  · cases l with
    | call j =>
      obtain rfl : j = i := hOwn
      simp only [ProducerHash.step, hCall] at hStep
      cases hStep
    | allocate j ok =>
      obtain rfl : j = i := hOwn
      simp only [ProducerHash.step, hCall] at hStep
      cases pc with
      | allocating => cases hLooks
      | _ => cases hStep
    | create j ok =>
      obtain rfl : j = i := hOwn
      simp only [ProducerHash.step, hCall] at hStep
      cases pc with
      | creating => cases hLooks
      | _ => cases hStep
    | ret j => exact absurd (congrArg Label.ret hOwn) hNoRet
    | step j =>
      obtain rfl : j = i := hOwn
      simp only [ProducerHash.step, hCall] at hStep
      obtain ⟨⟨s₁, pc'⟩, hAccess, rfl⟩ := Option.map_eq_some_iff.mp hStep
      obtain ⟨hLooks', hLess⟩ := h.left_step hHas hCall hLooks hAccess
      have hNow : (s₁.setCall j (some pc')).calls j = some pc' := Function.update_self ..
      have hAccessOf : (Label.step j).accessOf j = true := decide_eq_true rfl
      refine ⟨⟨pc', hNow, hLooks'⟩, ?_⟩
      rw [left_eq hNow, if_pos hAccessOf]
      exact hLess
  · have hNow : s'.calls i = some pc := (hFrame.calls i hOwn).trans hCall
    refine ⟨⟨pc, hNow, hLooks⟩, ?_⟩
    have hOther : l.accessOf i = false := by
      cases l with
      | step j => exact decide_eq_false hOwn
      | _ => rfl
    rw [left_eq hNow, hOther, Pc.left_frame (h.fits i pc hCall) hFrame.capacity]
    exact le_rfl

/-- **Looking up is wait-free.** In every run, a call of a thread that has a
producer makes at most four accesses, after the first, for each entry of the
table that was the newest at the first, whatever the other threads do and
whatever tables they make; and wherever they are, it can make its next access
or returns the producer of the thread. -/
theorem lookup_wait_free {initialSize : Nat} (hSize : 0 < initialSize)
    (h : (system T hashThreadId initialSize).Reachable s) (hHas : i ∈ s.producers)
    (hCall : s.calls i = some .entered)
    (hFirst : (system T hashThreadId initialSize).step s (.step i) = some s₁) {as : List (Label T)}
    (hRun : (system T hashThreadId initialSize).run s₁ as = some s')
    (hNoRet : ∀ a ∈ as, a ≠ .ret i) :
    as.countP (Label.accessOf i) ≤ 4 * s.capacity s.implicitProducerHash + 1 ∧
      ((∃ t, (system T hashThreadId initialSize).step s' (.step i) = some t) ∨
        ∃ p, s'.calls i = some (.returning (some p)) ∧ s'.producers[p]? = some i) := by
  let M := system T hashThreadId initialSize
  have hReachable : M.Reachable s₁ := System.Reachable.step h hFirst
  have hFrame : Frame s s₁ i := step_frame (l := .step i) hFirst
  have hHas₁ : i ∈ s₁.producers := hFrame.producers hHas
  obtain ⟨rank, holder, hSound⟩ := sound_of_reachable hSize h
  have hNewest := hSound.newest
  have hStart : s₁.calls i = some (.probing s.implicitProducerHash s.implicitProducerHash
      (hashThreadId i)) ∧ s₁.capacity s.implicitProducerHash =
        s.capacity s.implicitProducerHash := by
    refine ⟨?_, hFrame.capacity _ (by omega)⟩
    simp only [system, step, hCall, stepCall, Option.map_some, Option.some.injEq] at hFirst
    subst hFirst
    exact Function.update_self ..
  obtain ⟨hProbing, hSame⟩ := hStart
  obtain ⟨⟨hEnd, hHas', pc, hStill, hLooks⟩, hCount⟩ := System.run_measure
    (p := Label.accessOf i)
    (I := fun t => M.Reachable t ∧ i ∈ t.producers ∧ ∃ pc, t.calls i = some pc ∧ pc.looks = true)
    (μ := left hashThreadId i) hRun ⟨hReachable, hHas₁, _, hProbing, rfl⟩ (by
      rintro t a u ⟨hReached, hHas', pc, hCall', hLooks⟩ ha hStep
      obtain ⟨rank', holder', hSound'⟩ := sound_of_reachable hSize hReached
      obtain ⟨hStill, hLess⟩ := hSound'.left_le hHas' hCall' hLooks (hNoRet a ha) hStep
      exact ⟨⟨hReached.step hStep, (step_frame hStep).producers hHas', hStill⟩, hLess⟩)
  constructor
  · rw [left_eq hProbing] at hCount
    simp only [Pc.left, hSame] at hCount
    omega
  · obtain ⟨rank', holder', hSound'⟩ := sound_of_reachable hSize hEnd
    have hFits := hSound'.fits i pc hStill
    cases pc with
    | returning value =>
      rcases hFits with ⟨p, rfl, hp⟩ | ⟨-, hNot⟩
      · exact .inr ⟨p, hStill, hp⟩
      · exact absurd hHas' hNot
    | _ =>
      obtain ⟨r, hr⟩ := stepCall_of_looks hashThreadId s' i hLooks
        (fun _ hEq => by cases hEq)
      refine .inl ⟨r.1.setCall i (some r.2), ?_⟩
      simp only [system, step, hStill, hr, Option.map_some]

/-- All ids have the same place. The producer of the second thread is in the
old table when the first thread makes a new one. -/
def oneHash (_ : Fin 2) : Nat := 0

def lookAgain : List (Label 2) :=
  List.flatten [.call Process.second :: List.replicate 4 (.step Process.second),
    .create Process.second true :: List.replicate 3 (.step Process.second), [.ret Process.second],
    .call Process.first :: List.replicate 6 (.step Process.first),
    .allocate Process.first true :: List.replicate 2 (.step Process.first),
    [.call Process.second]]

def lookingAgain : ProducerHash 2 :=
  ((system 2 oneHash 4).run (system 2 oneHash 4).init lookAgain).get (by decide +kernel)

def loaded : ProducerHash 2 :=
  ((system 2 oneHash 4).step lookingAgain (.step Process.second)).get (by decide +kernel)

/-- The first thread takes the place that the second has found free. -/
def lookOn : List (Label 2) :=
  List.flatten [List.replicate 3 (.step Process.second), [.create Process.first true],
    List.replicate 2 (.step Process.first), List.replicate 4 (.step Process.second)]

theorem lookup_wait_free_lookOn : lookOn.countP (Label.accessOf Process.second) ≤
    4 * lookingAgain.capacity lookingAgain.implicitProducerHash + 1 := by
  have hFirst : (system 2 oneHash 4).step lookingAgain (.step Process.second) = some loaded :=
    (Option.some_get _).symm
  have hRun : (system 2 oneHash 4).run loaded lookOn = some _ :=
    (Option.some_get (by decide +kernel)).symm
  refine (lookup_wait_free (s := lookingAgain) (by decide)
    (System.Reachable.get (M := system 2 oneHash 4) lookAgain (by decide +kernel))
    (by decide +kernel) (by decide +kernel) hFirst hRun ?_).1
  rintro a ha rfl
  simp [lookOn] at ha

/-- The call is about to return null. -/
def Pc.failed : Pc → Bool
  | .refused => true
  | .releasing => true
  | .undoing => true
  | .returning none => true
  | _ => false

theorem settle_failed (s : ProducerHash T) (m newCount : Nat) :
    (s.settle m newCount).failed = false := by
  unfold settle
  split
  · rfl
  · rfl

/-- No access makes a call fail. -/
theorem Sound.failed_step (h : Sound hashThreadId s rank holder) (hCall : s.calls i = some pc)
    (hWorks : pc.failed = false) (hStep : stepCall hashThreadId s i pc = some (s₁, pc')) :
    pc'.failed = false := by
  have hFits := h.fits i pc hCall
  cases pc with
  | probing m t index =>
    obtain ⟨hLe, hm, -⟩ := hFits
    simp only [stepCall, Option.some.injEq, Prod.mk.injEq] at hStep
    obtain ⟨-, rfl⟩ := hStep
    split
    · next j hKey =>
      split
      · next hEq =>
        obtain ⟨p, hValue, -⟩ := h.values t _ j (hLe.trans_lt hm) hKey fun value hAt => by
          rw [hEq, hCall] at hAt
          cases hAt
        split
        · rw [hValue]
          rfl
        · rfl
      · rfl
    · split
      · rfl
      · rfl
  | storing m index value =>
    obtain ⟨-, -, p, rfl, -⟩ := hFits
    cases hStep
    rfl
  | taking m index value =>
    simp only [stepCall] at hStep
    split at hStep
    · cases hStep
      rfl
    · cases hStep
      rfl
  | testing m newCount =>
    simp only [stepCall] at hStep
    split at hStep
    · cases hStep
      rfl
    · cases hStep
      exact settle_failed ..
  | inserting m index value | locked newCount =>
    cases hStep
    split
    · rfl
    · rfl
  | unlocking m newCount =>
    cases hStep
    exact settle_failed ..
  | entered | counting | publishing | waiting =>
    cases hStep
    rfl
  | allocating | creating | returning => cases hStep
  | refused | releasing | undoing => cases hWorks

/-- As long as thread `i` is not refused memory, it gets producers. -/
theorem Sound.works (h : Sound hashThreadId s rank holder) {l : Label T}
    (hStep : ProducerHash.step hashThreadId s l = some s') (hAllocate : l ≠ .allocate i false)
    (hCreate : l ≠ .create i false)
    (hWorks : (s.calls i).any Pc.failed = false ∧ (i, none) ∉ s.returned) :
    (s'.calls i).any Pc.failed = false ∧ (i, none) ∉ s'.returned := by
  obtain ⟨hWorks, hGot⟩ := hWorks
  have hFrame := step_frame hStep
  by_cases hOwn : l.thread = i
  · cases l with
    | call j =>
      obtain rfl : j = i := hOwn
      simp only [ProducerHash.step] at hStep
      split at hStep
      · cases hStep
        refine ⟨?_, hGot⟩
        show (Function.update s.calls j _ j).any Pc.failed = false
        rw [Function.update_self]
        rfl
      · cases hStep
    | step j =>
      obtain rfl : j = i := hOwn
      simp only [ProducerHash.step] at hStep
      split at hStep
      · next pc hCall =>
        obtain ⟨⟨s₁, pc'⟩, hAccess, rfl⟩ := Option.map_eq_some_iff.mp hStep
        rw [hCall] at hWorks
        refine ⟨?_, ?_⟩
        · show (Function.update s₁.calls j (some pc') j).any Pc.failed = false
          rw [Function.update_self]
          exact h.failed_step hCall hWorks hAccess
        · show (j, none) ∉ s₁.returned
          rw [(stepCall_frame hAccess).2]
          exact hGot
      · cases hStep
    | allocate j ok =>
      obtain rfl : j = i := hOwn
      cases ok with
      | false => exact absurd rfl hAllocate
      | true =>
        simp only [ProducerHash.step] at hStep
        split at hStep
        · cases hStep
          refine ⟨?_, hGot⟩
          show (Function.update s.calls j _ j).any Pc.failed = false
          rw [Function.update_self]
          rfl
        · cases hStep
    | create j ok =>
      obtain rfl : j = i := hOwn
      cases ok with
      | false => exact absurd rfl hCreate
      | true =>
        simp only [ProducerHash.step] at hStep
        split at hStep
        · cases hStep
          refine ⟨?_, hGot⟩
          show (Function.update s.calls j _ j).any Pc.failed = false
          rw [Function.update_self]
          rfl
        · cases hStep
    | ret j =>
      obtain rfl : j = i := hOwn
      simp only [ProducerHash.step] at hStep
      split at hStep
      · next value hCall =>
        cases hStep
        refine ⟨?_, fun hIn => ?_⟩
        · show (Function.update s.calls j none j).any Pc.failed = false
          rw [Function.update_self]
          rfl
        · rcases List.mem_append.mp hIn with hOld | hNew
          · exact hGot hOld
          · cases List.mem_singleton.mp hNew
            rw [hCall] at hWorks
            cases hWorks
      · cases hStep
  · rw [hFrame.calls i hOwn]
    exact ⟨hWorks, fun hIn => hGot (hFrame.returned i none hOwn hIn)⟩

/-- **Only memory can be the reason of a failure.** In every run, a call of
`get_or_add_implicit_producer` that returns null has been refused memory, for a
table or for a producer: it is never turned away because a table is full. -/
theorem fails_without_memory {initialSize : Nat} (hSize : 0 < initialSize) {as : List (Label T)}
    (hRun : (system T hashThreadId initialSize).run (system T hashThreadId initialSize).init as =
      some s) (hFailed : (i, none) ∈ s.returned) :
    .allocate i false ∈ as ∨ .create i false ∈ as := by
  by_contra hNot
  rw [not_or] at hNot
  obtain ⟨⟨-, -, hGot⟩, -⟩ := System.run_measure (p := fun _ => false)
    (I := fun t => (system T hashThreadId initialSize).Reachable t ∧
      (t.calls i).any Pc.failed = false ∧ (i, none) ∉ t.returned)
    (μ := fun _ => 0) hRun ⟨.init, rfl, List.not_mem_nil⟩ (by
      rintro t a u ⟨hReached, hWorks⟩ ha hStep
      obtain ⟨rank, holder, hSound⟩ := sound_of_reachable hSize hReached
      refine ⟨⟨hReached.step hStep, hSound.works hStep ?_ ?_ hWorks⟩, le_rfl⟩
      · rintro rfl
        exact hNot.1 ha
      · rintro rfl
        exact hNot.2 ha)
  exact hGot hFailed

/-- The second thread is refused a table. -/
def refuseSecond : List (Label 2) :=
  List.flatten [.call Process.first :: List.replicate 4 (.step Process.first),
    [.call Process.second], List.replicate 5 (.step Process.second),
    .allocate Process.second false :: List.replicate 2 (.step Process.second),
    [.ret Process.second]]

theorem fails_without_memory_refuseSecond :
    Label.allocate Process.second false ∈ refuseSecond ∨
      Label.create Process.second false ∈ refuseSecond := by
  have hRun : (system 2 oneHash 4).run (system 2 oneHash 4).init refuseSecond = some _ :=
    (Option.some_get (by decide +kernel)).symm
  exact fails_without_memory (by decide) hRun (by decide +kernel)

end ProducerHash

end ThreadPool.Model
