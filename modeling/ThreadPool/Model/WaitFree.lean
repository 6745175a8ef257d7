import ThreadPool.Model.Elements

/-!
# ThreadPool — a sub-queue makes nobody wait

How many accesses `enqueue` and `dequeue_bulk` make, whatever the other threads
do meanwhile: the number of accesses a call has left goes down with each of its
own and does not go up with those of others (`System.run_measure`).

* `dequeue_wait_free` — at most three accesses for each element, and ten;
* `enqueue_wait_free` — at most two for each flag of a block, and five.
-/

namespace ThreadPool.Model

open ThreadPool.Lib

namespace SubQueue

variable {T : Nat} {τ : Type} {s s' : SubQueue T τ}

/-- The thread that takes a step; the producer's have none. -/
def Label.thread : Label T τ → Option (Fin T)
  | .enqueue _ => none
  | .call i _ => some i
  | .step i => some i
  | .ret i => some i

/-- Threads leave the calls of others alone, and only the producer appends. -/
theorem step_frame {l : Label T τ} (h : s.step l = some s') :
    (∀ i, l.thread ≠ some i → s'.calls i = s.calls i) ∧
      (l.thread ≠ none → s'.items = s.items) := by
  cases l with
  | enqueue vs =>
    cases h
    exact ⟨fun _ _ => rfl, fun hNe => absurd rfl hNe⟩
  | call j max =>
    simp only [step] at h
    split at h
    · cases h
      exact ⟨fun i hNe => Function.update_of_ne (fun hEq => hNe (congrArg some hEq.symm)) ..,
        fun _ => rfl⟩
    · cases h
  | step j | ret j =>
    simp only [step] at h
    split at h
    · obtain ⟨x, -, rfl⟩ := Option.map_eq_some_iff.mp h
      exact ⟨fun i hNe => Function.update_of_ne (fun hEq => hNe (congrArg some hEq.symm)) ..,
        fun _ => rfl⟩
    · cases h

theorem head_le_step {l : Label T τ} (h : s.step l = some s') :
    s.counters.headIndex ≤ s'.counters.headIndex := by
  cases l with
  | enqueue vs =>
    cases h
    exact le_rfl
  | call j max =>
    simp only [step] at h
    split at h
    · cases h
      exact le_rfl
    · cases h
  | step j =>
    simp only [step] at h
    split at h
    · obtain ⟨x, hCall, rfl⟩ := Option.map_eq_some_iff.mp h
      exact (stepCall_counters hCall).2.1
    · cases h
  | ret j =>
    simp only [step] at h
    split at h
    · obtain ⟨x, -, rfl⟩ := Option.map_eq_some_iff.mp h
      exact le_rfl
    · cases h

end SubQueue

namespace ExplicitProducer

variable {T : Nat} {B τ : Type} {tr : Traits} {allocated : Bool} {s s' : ExplicitProducer T B τ}
  {g g' : History B} [DecidableEq B]

-- ---------------------------------------------------------------------------
-- Calls of consumers
-- ---------------------------------------------------------------------------

/-- The number of accesses that a call has left at most. -/
def Dequeue.left (tr : Traits) (index actualCount : Nat) : Option (Dequeue B τ) → Nat
  | none => 3 * actualCount + 3
  | some (.header _) => 3 * actualCount + 2
  | some (.front _ _) => 3 * actualCount + 1
  | some (.block _ _ i _) => 3 * (index + actualCount - i)
  -- to move out what is left in the block, to set its flags, and to go on
  | some (.element _ _ _ first i _) =>
    claimedEnd tr index actualCount first - i + (claimedEnd tr index actualCount first - first) +
      3 * (index + actualCount - claimedEnd tr index actualCount first)
  | some (.emptying _ _ _ first i j _) => i - first - j + 3 * (index + actualCount - i)
  | some (.done _) => 0

/-- Whether a step is an access of call `i`. -/
def Label.accessOf (i : Fin T) : Label T B τ → Bool
  | .step j => decide (j = i)
  | _ => false

omit [DecidableEq B] in
theorem Reads.left_le {index actualCount : Nat} {r : Option (Dequeue B τ)}
    (h : Reads tr s g index actualCount r) :
    Dequeue.left tr index actualCount r ≤ 3 * actualCount + 3 := by
  have hFits := h.fits
  cases r with
  | none => exact le_rfl
  | some r =>
    cases r with
    | header | front =>
      simp only [Dequeue.left]
      omega
    | block hd indexIndex x got =>
      obtain ⟨-, -, -, hLow, -⟩ := hFits
      simp only [Dequeue.left]
      omega
    | element hd indexIndex b first x got =>
      obtain ⟨-, -, -, hLow, hFirst, hHigh, -⟩ := hFits
      have hEnd := claimedEnd_le tr index actualCount first
      simp only [Dequeue.left]
      omega
    | emptying hd indexIndex b first x j got =>
      obtain ⟨-, -, -, hLow, hMore, hLast, -⟩ := hFits
      have hEnd := claimedEnd_le tr index actualCount first
      simp only [Dequeue.left]
      omega
    | done got => exact Nat.zero_le _

/-- One access less. -/
theorem Kept.left_step (h : Kept tr s g) {i : Fin T} {max index actualCount : Nat}
    (hCall : s.base.calls i = some (max, .claimed index actualCount))
    {t : ExplicitProducer T B τ} {r : Dequeue B τ}
    (hStep : stepDequeue tr s index actualCount (s.dequeueing i) = some (t, r)) :
    Dequeue.left tr index actualCount (some r) + 1 ≤
      Dequeue.left tr index actualCount (s.dequeueing i) := by
  have hSize := Traits.blockSize_pos tr
  cases hAt : s.dequeueing i with
  | none =>
    rw [hAt] at hStep
    cases hStep
    exact le_rfl
  | some r₀ =>
    have hFits := (h.reads hCall hAt).fits
    have hHalf := (h.consumes.sized i max _ hCall).2
    rw [hAt] at hStep
    cases r₀ with
    | header hd =>
      simp only [stepDequeue] at hStep
      split at hStep
      · cases hStep
      · cases hStep
        exact le_rfl
    | front hd head =>
      obtain ⟨entry, -, hEq⟩ := Option.map_eq_some_iff.mp hStep
      cases hEq
      simp only [Dequeue.left]
      omega
    | block hd indexIndex x got =>
      obtain ⟨entry, -, hEq⟩ := Option.map_eq_some_iff.mp hStep
      cases hEq
      obtain ⟨-, -, -, hLow, hHigh, -⟩ := hFits
      have hEnd := claimedEnd_le tr index actualCount x
      have hMore : x < claimedEnd tr index actualCount x := by
        have hBlock := block_end tr x
        have hMod := Nat.mod_lt x hSize
        exact lt_min hHigh (by omega)
      simp only [Dequeue.left]
      omega
    | element hd indexIndex b first x got =>
      obtain ⟨v, -, hEq⟩ := Option.map_eq_some_iff.mp hStep
      cases hEq
      obtain ⟨-, -, -, hLow, hFirst, hHigh, -⟩ := hFits
      have hEnd := claimedEnd_le tr index actualCount first
      have hClaimedEnd := endIndex_eq tr hHalf hLow (by omega : first < index + actualCount)
      split
      · next hLast =>
        replace hLast : x + 1 = claimedEnd tr index actualCount first := hLast.trans hClaimedEnd
        simp only [Dequeue.left]
        omega
      · simp only [Dequeue.left]
        omega
    | emptying hd indexIndex b first x j got =>
      cases hStep
      obtain ⟨-, -, -, hLow, hMore, hLast, -⟩ := hFits
      split
      · split
        · simp only [Dequeue.left]
          omega
        · simp only [Dequeue.left]
          omega
      · simp only [Dequeue.left]
        omega
    | done got => cases hStep

/-- The number of accesses that a call for `max` elements has left at most. -/
def callLeft (tr : Traits) (max : Nat) (r : Option (Dequeue B τ)) : SubQueue.Pc → Nat
  | .entered _ => 3 * max + 10
  | .tailLoaded _ _ => 3 * max + 9
  | .overcommitLoaded _ _ _ => 3 * max + 8
  | .counting _ _ => 3 * max + 7
  | .counted _ _ _ => 3 * max + 6
  | .correcting _ _ => 3 * max + 5
  | .claiming _ => 3 * max + 4
  | .claimed index actualCount => Dequeue.left tr index actualCount r
  | .nothing => 0

def left (tr : Traits) (s : ExplicitProducer T B τ) (i : Fin T) : Nat :=
  (s.base.calls i).elim 0 fun x => callLeft tr x.1 (s.dequeueing i) x.2

omit [DecidableEq B] in
theorem left_eq {i : Fin T} {max : Nat} {pc : SubQueue.Pc}
    (hCall : s.base.calls i = some (max, pc)) :
    left tr s i = callLeft tr max (s.dequeueing i) pc := by
  unfold left
  rw [hCall]
  rfl

omit [DecidableEq B] in
/-- One access less while a call has no indices yet. -/
theorem callLeft_stepCall {c c' : SubQueue.Counters} {pc pc' : SubQueue.Pc} {max : Nat}
    (h : SubQueue.stepCall c pc = some (c', pc'))
    (hCount : ∀ index actualCount, pc' = .claimed index actualCount → actualCount ≤ max) :
    callLeft tr max (none : Option (Dequeue B τ)) pc' + 1 ≤
      callLeft tr max (none : Option (Dequeue B τ)) pc := by
  cases pc with
  | entered | tailLoaded | counting =>
    cases h
    exact le_rfl
  | overcommitLoaded | correcting =>
    cases h
    split
    · simp only [callLeft]
      omega
    · simp only [callLeft]
      omega
  | counted desiredCount overcommit myDequeueCount =>
    cases h
    unfold SubQueue.settle
    split
    · split
      · simp only [callLeft]
        omega
      · simp only [callLeft]
        omega
    · simp only [callLeft]
      omega
  | claiming actualCount =>
    cases h
    have hLe := hCount _ _ rfl
    simp only [callLeft, Dequeue.left]
    omega
  | claimed | nothing => cases h

omit [DecidableEq B] in
/-- A call claims no more than it may. -/
theorem Kept.count_le (h : Kept tr s g) {i : Fin T} {max index actualCount : Nat}
    (hCall : s.base.calls i = some (max, .claimed index actualCount)) : actualCount ≤ max := by
  obtain ⟨won, failed, hIndexed⟩ := SubQueue.indexed_of_reachable h.base
  exact (hIndexed.fits hCall).1

omit [DecidableEq B] in
theorem Kept.left_le (h : Kept tr s g) {i : Fin T} {max : Nat} {pc : SubQueue.Pc}
    (hCall : s.base.calls i = some (max, pc)) : left tr s i ≤ 3 * max + 10 := by
  rw [left_eq hCall]
  cases pc with
  | claimed index actualCount =>
    have hLeft := (h.consumes.reads i max index actualCount hCall).left_le
    have hCount := h.count_le hCall
    simp only [callLeft]
    omega
  | _ =>
    simp only [callLeft]
    omega

/-- Other steps leave a call where it is. -/
theorem call_frame {l : Label T B τ}
    (hStep : (nearSystem tr allocated T B τ).step s l = some s') {i : Fin T}
    {max : Nat} {pc : SubQueue.Pc} (hCall : s.base.calls i = some (max, pc))
    (hOther : l.accessOf i = false) (hNoRet : l ≠ .ret i) :
    s'.dequeueing i = s.dequeueing i ∧ s'.base.calls i = s.base.calls i := by
  obtain ⟨-, hMove⟩ := step_cases hStep
  cases hMove with
  | enqueue | grow | refuse | deny | enqueued => exact ⟨rfl, rfl⟩
  | insert v b =>
    obtain ⟨hBase, hDequeueing⟩ := insertBlock_frame (s := s) b
    exact ⟨congrFun hDequeueing i, congrArg (·.calls i) hBase⟩
  | produce pc' pc'' t hPc hAccess =>
    obtain ⟨hDequeueing, hBase⟩ := stepEnqueue_frame hAccess
    refine ⟨congrFun hDequeueing i, ?_⟩
    rcases hBase with hSame | ⟨v, hBase⟩
    · exact congrArg (·.calls i) hSame
    · exact (SubQueue.step_frame hBase).1 i (fun hEq => by cases hEq)
  | call j max' base hMax hBase =>
    refine ⟨rfl, (SubQueue.step_frame hBase).1 i fun hEq => ?_⟩
    cases hEq
    simp only [SubQueue.step, hCall] at hBase
    cases hBase
  | claim j base hNot hBase =>
    have hNe : j ≠ i := of_decide_eq_false hOther
    exact ⟨rfl, (SubQueue.step_frame hBase).1 i fun hEq => hNe (Option.some.inj hEq)⟩
  | step j max' index' actualCount' t r hCall' hAccess =>
    have hNe : j ≠ i := of_decide_eq_false hOther
    obtain ⟨hBase, hDequeueing, -⟩ := stepDequeue_frame hAccess
    refine ⟨?_, congrArg (·.calls i) hBase⟩
    dsimp only
    rw [Function.update_of_ne hNe.symm, hDequeueing]
  | ret j max' index' actualCount' got base hCall' hDone hBase =>
    have hNe : i ≠ j := by
      rintro rfl
      exact hNoRet rfl
    exact ⟨Function.update_of_ne hNe ..,
      (SubQueue.step_frame hBase).1 i fun hEq => hNe (Option.some.inj hEq).symm⟩
  | empty j max' base hCall' hBase =>
    have hNe : i ≠ j := by
      rintro rfl
      exact hNoRet rfl
    exact ⟨rfl, (SubQueue.step_frame hBase).1 i fun hEq => hNe (Option.some.inj hEq).symm⟩

/-- Wherever a call is, it can make its next access or return. -/
theorem Kept.canGoOn (h : Kept tr s g) {i : Fin T} {max : Nat} {pc : SubQueue.Pc}
    (hCall : s.base.calls i = some (max, pc)) (hNear : near s (.step i) = true) :
    ∃ l t, l ∈ [Label.step i, .ret i] ∧ (nearSystem tr allocated T B τ).step s l = some t := by
  have hGo : ∀ l ∈ [Label.step i, .ret i], (ExplicitProducer.step tr s l).isSome = true →
      ∃ l t, l ∈ [Label.step i, .ret i] ∧ (nearSystem tr allocated T B τ).step s l = some t := by
    intro l hl hSome
    obtain ⟨t, ht⟩ := Option.isSome_iff_exists.mp hSome
    refine ⟨l, t, hl, System.restrict_step.mpr ⟨?_, ht⟩⟩
    rcases List.mem_cons.mp hl with rfl | hRet
    · exact hNear
    · rw [List.mem_singleton.mp hRet]
      rfl
  have hReturn := hGo (.ret i) (List.mem_cons_of_mem _ List.mem_cons_self)
  cases pc with
  | claimed index actualCount =>
    by_cases hDone : ∃ got, s.dequeueing i = some (.done got)
    · obtain ⟨got, hDone⟩ := hDone
      refine hReturn ?_
      simp only [ExplicitProducer.step, SubQueue.step, hCall, hDone]
      rfl
    · obtain ⟨t, r, -, hStep⟩ := h.canStep hCall fun got hAt => hDone ⟨got, hAt⟩
      exact ⟨.step i, _, List.mem_cons_self, hStep⟩
  | nothing =>
    refine hReturn ?_
    simp only [ExplicitProducer.step, SubQueue.step, hCall]
    rfl
  | _ =>
    refine hGo (.step i) List.mem_cons_self ?_
    simp only [ExplicitProducer.step, SubQueue.step, hCall]
    rfl

/-- An access of the call itself brings it on. -/
theorem Kept.access (h : Kept tr s g) (h' : Kept tr s' g') {i : Fin T} {max : Nat}
    {pc : SubQueue.Pc} (hCall : s.base.calls i = some (max, pc))
    (hStep : (nearSystem tr allocated T B τ).step s (.step i) = some s') :
    (∃ pc', s'.base.calls i = some (max, pc')) ∧ left tr s' i + 1 ≤ left tr s i := by
  obtain ⟨-, hMove⟩ := step_cases hStep
  cases hMove with
  | step j max' index actualCount t r hCall' hAccess =>
    rw [hCall] at hCall'
    cases hCall'
    obtain ⟨hBase, -, -⟩ := stepDequeue_frame hAccess
    have hSame : t.base.calls i = some (max, .claimed index actualCount) := by
      rw [hBase, hCall]
    refine ⟨⟨_, hSame⟩, ?_⟩
    rw [left_eq (s := { t with dequeueing := Function.update t.dequeueing i (some r) }) hSame,
      left_eq hCall]
    dsimp only
    rw [Function.update_self]
    exact h.left_step hCall hAccess
  | claim j base hNot hBase =>
    simp only [SubQueue.step, hCall] at hBase
    obtain ⟨⟨c, pc'⟩, hAccess, rfl⟩ := Option.map_eq_some_iff.mp hBase
    have hNow : Function.update s.base.calls i (some (max, pc')) i = some (max, pc') :=
      Function.update_self ..
    refine ⟨⟨pc', hNow⟩, ?_⟩
    rw [left_eq (s := { s with base := _ }) hNow, left_eq hCall]
    dsimp only
    rw [h.consumes.idle i hNot]
    refine callLeft_stepCall hAccess ?_
    rintro index actualCount rfl
    exact h'.count_le hNow

/-- **Consumers are wait-free.** In every run, a call of `dequeue_bulk` makes at
most three accesses for each element that it may take, and ten, whatever the
other threads do; and wherever they are, it can make its next access or return. -/
theorem dequeue_wait_free (h : (nearSystem tr allocated T B τ).Reachable s) {i : Fin T} {max : Nat}
    {pc : SubQueue.Pc} (hCall : s.base.calls i = some (max, pc)) {as : List (Label T B τ)}
    (hRun : (nearSystem tr allocated T B τ).run s as = some s') (hNoRet : ∀ a ∈ as, a ≠ .ret i) :
    as.countP (Label.accessOf i) ≤ 3 * max + 10 ∧
      (near s' (.step i) = true → ∃ l t, l ∈ [Label.step i, .ret i] ∧
        (nearSystem tr allocated T B τ).step s' l = some t) := by
  have hMeasure := System.run_measure (p := Label.accessOf i)
    (I := fun t : ExplicitProducer T B τ => (nearSystem tr allocated T B τ).Reachable t ∧
      ∃ pc, t.base.calls i = some (max, pc))
    (μ := fun t => left tr t i) hRun ⟨h, pc, hCall⟩ ?_
  · obtain ⟨⟨hReachable, pc', hStill⟩, hCount⟩ := hMeasure
    obtain ⟨g, hKept⟩ := kept_of_reachable h
    have hLeft := hKept.left_le hCall
    refine ⟨by omega, fun hNear => ?_⟩
    obtain ⟨g', hKept'⟩ := kept_of_reachable hReachable
    exact hKept'.canGoOn hStill hNear
  · rintro t a u ⟨hReachable, pc', hStill⟩ ha hStep
    obtain ⟨g, hKept⟩ := kept_of_reachable hReachable
    by_cases hOwn : a.accessOf i = true
    · obtain ⟨g', hKept'⟩ := hKept.step hStep
      have hLabel : a = .step i := by
        cases a with
        | step j => exact congrArg Label.step (of_decide_eq_true hOwn)
        | _ => cases hOwn
      rw [if_pos hOwn]
      subst hLabel
      obtain ⟨hNow, hLess⟩ := hKept.access hKept' hStill hStep
      exact ⟨⟨hReachable.step hStep, hNow⟩, hLess⟩
    · obtain ⟨hDequeueing, hCalls⟩ := call_frame hStep hStill (Bool.eq_false_iff.mpr hOwn)
        (hNoRet a ha)
      refine ⟨⟨hReachable.step hStep, pc', hCalls.trans hStill⟩, ?_⟩
      rw [if_neg hOwn]
      rw [left_eq hStill, left_eq (hCalls.trans hStill), hDequeueing]
      exact le_rfl

theorem dequeue_wait_free_looking :
    growIndex.countP (Label.accessOf Process.first) ≤ 3 * 3 + 10 := by
  have hRun : (nearSystem twos true 2 Nat Nat).run looking growIndex = some _ :=
    (Option.some_get (by decide +kernel)).symm
  refine (dequeue_wait_free (System.Reachable.get fillTwo (by decide +kernel)) rfl hRun ?_).1
  rintro a ha rfl
  simp [growIndex] at ha

-- ---------------------------------------------------------------------------
-- The producer
-- ---------------------------------------------------------------------------

/-- The number of accesses that `enqueue` has left at most; a new block index
and a new block count as one each. -/
def Enqueue.left (tr : Traits) : Enqueue τ → Nat
  -- the other flags, and all of them once more if the block is reused
  | .checking _ i => tr.blockSize - i + (tr.blockSize + 5)
  | .measuring _ => 7
  | .indexing _ => 6
  | .requisitioning _ => 5
  | .reusing _ i => tr.blockSize - i + 4
  | .listing _ => 4
  | .fronting _ => 3
  | .constructing _ => 2
  | .storing _ => 1
  | .returning _ => 0

/-- Whether a step is one of the producer within `enqueue`. -/
def Label.produces : Label T B τ → Bool
  | .produce => true
  | .grow _ => true
  | .requisition _ => true
  | _ => false

/-- The element that is being enqueued. -/
def Enqueue.element : Enqueue τ → Option τ
  | .checking v _ => some v
  | .reusing v _ => some v
  | .measuring v => some v
  | .indexing v => some v
  | .requisitioning v => some v
  | .listing v => some v
  | .fronting v => some v
  | .constructing v => some v
  | .storing v => some v
  | .returning _ => none

/-- `enqueue(v)` is in progress: `v` is behind the elements that there were
`before` when it is about to return true, and if it is about to return false
it was `refused`. -/
def Enqueue.Progress (v : τ) (before items : List τ) (refused : Prop) (pc : Enqueue τ) : Prop :=
  (pc.element = some v ∧ items = before) ∨ (pc = .returning true ∧ items = before ++ [v]) ∨
    (pc = .returning false ∧ items = before ∧ refused)

/-- As long as `enqueue` has its element, nothing is appended. -/
theorem Enqueue.Progress.element_eq {v w : τ} {before items : List τ} {refused : Prop}
    {pc : Enqueue τ} (h : pc.Progress v before items refused) (hw : pc.element = some w) :
    w = v ∧ items = before := by
  rcases h with ⟨hv, hItems⟩ | ⟨rfl, -⟩ | ⟨rfl, -⟩
  · exact ⟨Option.some.inj (hw.symm.trans hv), hItems⟩
  · cases hw
  · cases hw

omit [DecidableEq B] in
theorem startEnqueue_left (v : τ) :
    (startEnqueue tr s v).element = some v ∧
      (startEnqueue tr s v).left tr ≤ 2 * tr.blockSize + 5 := by
  have hSize := Traits.blockSize_pos tr
  unfold startEnqueue
  split
  · split
    · refine ⟨rfl, ?_⟩
      simp only [Enqueue.left]
      omega
    · refine ⟨rfl, ?_⟩
      simp only [Enqueue.left]
      omega
  · refine ⟨rfl, ?_⟩
    simp only [Enqueue.left]
    omega

omit [DecidableEq B] in
/-- `enqueue` finds room in the sub-queue unless it is `2 ^ 63` elements long
with another block. -/
theorem Kept.near_tail (h : Kept tr s g)
    (hFew : ((s.base.counters.tailIndex + tr.blockSize : Nat) : Int) -
      s.base.counters.headIndex < indexHalf) :
    circularLessThan s.base.counters.headIndex
      ((s.base.counters.tailIndex + tr.blockSize : Nat) : Int) = true := by
  have hSize := Traits.blockSize_pos tr
  have hHead := h.head_le
  have hTail := h.tail_eq
  have hNear : SubQueue.Near ((s.base.counters.tailIndex + tr.blockSize : Nat) : Int)
      s.base.counters.headIndex := by
    unfold SubQueue.Near
    unfold indexHalf at *
    omega
  exact (SubQueue.circularLessThan_iff hNear).mpr (by omega)

theorem Kept.produce_left (h : Kept tr s g) {pc pc' : Enqueue τ} (hPc : s.enqueueing = some pc)
    {t : ExplicitProducer T B τ} (hAccess : stepEnqueue tr s pc = some (t, pc')) {v : τ}
    {before : List τ} {refused : Prop} (hProgress : pc.Progress v before s.base.items refused)
    (hMany : s.base.items = before →
      indexHalf ≤ ((s.base.counters.tailIndex + tr.blockSize : Nat) : Int) -
        s.base.counters.headIndex → refused) :
    pc'.Progress v before t.base.items refused ∧ pc'.left tr + 1 ≤ pc.left tr := by
  cases pc with
  | checking w j =>
    obtain ⟨n, hNext, hEq⟩ := Option.map_eq_some_iff.mp hAccess
    obtain ⟨rfl, hItems⟩ := hProgress.element_eq rfl
    have hSeen := h.produces.seen n (h.produces.ahead (by rw [hPc]; rfl) hNext)
    rw [hPc] at hSeen
    have hLt := hSeen.1
    have hTwo := tr.one_lt_blockSize
    split at hEq
    · split at hEq
      · cases hEq
        refine ⟨.inl ⟨rfl, hItems⟩, ?_⟩
        simp only [Enqueue.left]
        omega
      · cases hEq
        refine ⟨.inl ⟨rfl, hItems⟩, ?_⟩
        simp only [Enqueue.left]
        omega
    · cases hEq
      refine ⟨.inl ⟨rfl, hItems⟩, ?_⟩
      simp only [Enqueue.left]
      omega
  | reusing w j =>
    obtain ⟨n, hTail, hEq⟩ := Option.map_eq_some_iff.mp hAccess
    cases hEq
    obtain ⟨rfl, hItems⟩ := hProgress.element_eq rfl
    have hSeen := h.produces.seen n ((h.produces.oldest hPc).symm.trans hTail)
    rw [hPc] at hSeen
    have hLt := hSeen.1
    split
    · refine ⟨.inl ⟨rfl, hItems⟩, ?_⟩
      simp only [Enqueue.left]
      omega
    · refine ⟨.inl ⟨rfl, hItems⟩, ?_⟩
      simp only [Enqueue.left]
      omega
  | measuring w =>
    cases hAccess
    obtain ⟨rfl, hItems⟩ := hProgress.element_eq rfl
    split
    · exact ⟨.inl ⟨rfl, hItems⟩, le_rfl⟩
    · next hFar =>
      refine ⟨.inr (.inr ⟨rfl, hItems, hMany hItems ?_⟩), Nat.succ_le_succ (Nat.zero_le _)⟩
      by_contra hFew
      exact hFar (h.near_tail (not_le.mp hFew))
  | indexing w =>
    simp only [stepEnqueue] at hAccess
    split at hAccess
    · cases hAccess
    · cases hAccess
      obtain ⟨rfl, hItems⟩ := hProgress.element_eq rfl
      exact ⟨.inl ⟨rfl, hItems⟩, le_rfl⟩
  | listing w =>
    simp only [stepEnqueue] at hAccess
    split at hAccess
    · cases hAccess
    · obtain ⟨n, hTail, hEq⟩ := Option.map_eq_some_iff.mp hAccess
      cases hEq
      obtain ⟨rfl, hItems⟩ := hProgress.element_eq rfl
      exact ⟨.inl ⟨rfl, hItems⟩, le_rfl⟩
  | constructing w =>
    obtain ⟨n, hTail, hEq⟩ := Option.map_eq_some_iff.mp hAccess
    cases hEq
    obtain ⟨rfl, hItems⟩ := hProgress.element_eq rfl
    exact ⟨.inl ⟨rfl, hItems⟩, le_rfl⟩
  | fronting w =>
    simp only [stepEnqueue] at hAccess
    split at hAccess
    · cases hAccess
    · cases hAccess
      obtain ⟨rfl, hItems⟩ := hProgress.element_eq rfl
      exact ⟨.inl ⟨rfl, hItems⟩, le_rfl⟩
  | storing w =>
    cases hAccess
    obtain ⟨rfl, rfl⟩ := hProgress.element_eq rfl
    exact ⟨.inr (.inl ⟨rfl, rfl⟩), le_rfl⟩
  | requisitioning | returning => cases hAccess

/-- A step of the producer brings it on; the others leave it alone. -/
theorem Kept.progress (h : Kept tr s g) {l : Label T B τ}
    (hStep : (nearSystem tr allocated T B τ).step s l = some s') {pc : Enqueue τ}
    (hPc : s.enqueueing = some pc) (hNot : l ≠ .enqueued) {v : τ} {before : List τ}
    {refused : Prop} (hProgress : pc.Progress v before s.base.items refused)
    (hMany : s.base.items = before →
      indexHalf ≤ ((s.base.counters.tailIndex + tr.blockSize : Nat) : Int) -
        s.base.counters.headIndex → refused)
    (hRefused : l = .grow false ∨ l = .requisition none → refused) :
    ∃ pc', s'.enqueueing = some pc' ∧ pc'.Progress v before s'.base.items refused ∧
      pc'.left tr + (if l.produces then 1 else 0) ≤ pc.left tr := by
  obtain ⟨-, hMove⟩ := step_cases hStep
  cases hMove with
  | enqueue w hIdle =>
    rw [hIdle] at hPc
    cases hPc
  | produce pc₀ pc' t hPc₀ hAccess =>
    obtain rfl : pc₀ = pc := Option.some.inj (hPc₀.symm.trans hPc)
    exact ⟨pc', rfl, h.produce_left hPc hAccess hProgress hMany⟩
  | grow w hIndexing =>
    obtain rfl : Enqueue.indexing w = pc := Option.some.inj (hIndexing.symm.trans hPc)
    obtain ⟨rfl, hItems⟩ := hProgress.element_eq rfl
    exact ⟨_, rfl, .inl ⟨rfl, hItems⟩, le_rfl⟩
  | refuse w hIndexing =>
    obtain rfl : Enqueue.indexing w = pc := Option.some.inj (hIndexing.symm.trans hPc)
    obtain ⟨rfl, hItems⟩ := hProgress.element_eq rfl
    exact ⟨_, rfl, .inr (.inr ⟨rfl, hItems, hRefused (.inl rfl)⟩),
      Nat.succ_le_succ (Nat.zero_le _)⟩
  | insert w b hRequisitioning =>
    obtain rfl : Enqueue.requisitioning w = pc := Option.some.inj (hRequisitioning.symm.trans hPc)
    obtain ⟨rfl, hItems⟩ := hProgress.element_eq rfl
    refine ⟨_, rfl, .inl ⟨rfl, ?_⟩, le_rfl⟩
    exact (congrArg SubQueue.items (insertBlock_frame b).1).trans hItems
  | deny w hRequisitioning =>
    obtain rfl : Enqueue.requisitioning w = pc := Option.some.inj (hRequisitioning.symm.trans hPc)
    obtain ⟨rfl, hItems⟩ := hProgress.element_eq rfl
    exact ⟨_, rfl, .inr (.inr ⟨rfl, hItems, hRefused (.inr rfl)⟩),
      Nat.succ_le_succ (Nat.zero_le _)⟩
  | enqueued => exact absurd rfl hNot
  | step i max index actualCount t r hCall hAccess =>
    obtain ⟨hBase, -, hEnqueueing⟩ := stepDequeue_frame hAccess
    refine ⟨pc, hEnqueueing.trans hPc, ?_, le_rfl⟩
    dsimp only
    rw [hBase]
    exact hProgress
  | call i max base hMax hBase | claim i base hNot hBase | empty i max base hCall hBase
  | ret i max index actualCount got base hCall hDone hBase =>
    refine ⟨pc, hPc, ?_, le_rfl⟩
    dsimp only
    rw [(SubQueue.step_frame hBase).2 (fun hEq => by cases hEq)]
    exact hProgress

theorem head_le {l : Label T B τ} (hStep : (nearSystem tr allocated T B τ).step s l = some s') :
    s.base.counters.headIndex ≤ s'.base.counters.headIndex := by
  rcases base_step hStep with hSame | ⟨l', hBase⟩
  · rw [hSame]
  · exact SubQueue.head_le_step (System.restrict_step.mp hBase).2

/-- **The producer is wait-free**, but for the memory it asks for. Whatever the
consumers do, `enqueue` makes at most two accesses for each flag of a block, and
five; until it returns it can make its next one. It returns true once the
element is behind all others, and false only if it was refused memory or if the
sub-queue was `2 ^ 63` elements long with another block. -/
theorem enqueue_wait_free (h : (nearSystem tr allocated T B τ).Reachable s) {v : τ}
    {as : List (Label T B τ)}
    (hRun : (nearSystem tr allocated T B τ).run s (.enqueue v :: as) = some s')
    (hNoRet : ∀ a ∈ as, a ≠ .enqueued) :
    as.countP Label.produces ≤ 2 * tr.blockSize + 5 ∧
      ((s'.base.items = s.base.items ∧ ∃ l t, Label.produces l = true ∧
          (nearSystem tr allocated T B τ).step s' l = some t) ∨
        (s'.enqueueing = some (.returning true) ∧ s'.base.items = s.base.items ++ [v]) ∨
        (s'.enqueueing = some (.returning false) ∧ s'.base.items = s.base.items ∧
          ((∃ a ∈ as, a = .grow false ∨ a = .requisition none) ∨
            indexHalf ≤ ((s.base.counters.tailIndex + tr.blockSize : Nat) : Int) -
              s.base.counters.headIndex))) := by
  obtain ⟨t, hStart, hRest⟩ := System.run_cons.mp hRun
  have hReachable := h.step hStart
  have hTail : s.base.counters.tailIndex = s.base.items.length :=
    (kept_of_reachable h).elim fun _ hKept => hKept.tail_eq
  obtain ⟨-, hMove⟩ := step_cases hStart
  cases hMove with
  | enqueue _ hIdle =>
    let refused : Prop := (∃ a ∈ as, a = .grow false ∨ a = .requisition none) ∨
      indexHalf ≤ ((s.base.counters.tailIndex + tr.blockSize : Nat) : Int) -
        s.base.counters.headIndex
    obtain ⟨hElement, hLeft⟩ := startEnqueue_left (s := s) v
    have hMeasure := System.run_measure (p := Label.produces)
      (I := fun u : ExplicitProducer T B τ => (nearSystem tr allocated T B τ).Reachable u ∧
        s.base.counters.headIndex ≤ u.base.counters.headIndex ∧
        ∃ pc, u.enqueueing = some pc ∧ pc.Progress v s.base.items u.base.items refused)
      (μ := fun u => u.enqueueing.elim 0 (Enqueue.left tr)) hRest
      ⟨hReachable, le_rfl, _, rfl, .inl ⟨hElement, rfl⟩⟩ ?_
    · obtain ⟨⟨hEnd, -, pc, hPc, hProgress⟩, hCount⟩ := hMeasure
      have hStartLeft : as.countP Label.produces ≤ (startEnqueue tr s v).left tr :=
        (Nat.le_add_right ..).trans hCount
      refine ⟨hStartLeft.trans hLeft, ?_⟩
      rcases hProgress with ⟨hMore, hItems⟩ | ⟨rfl, hItems⟩ | ⟨rfl, hItems, hRefused⟩
      · obtain ⟨g, hKept⟩ := kept_of_reachable hEnd
        obtain ⟨l, u, hl, hNext⟩ := hKept.canProduce hPc (by
          rintro ok rfl
          cases hMore)
        refine .inl ⟨hItems, l, u, ?_, hNext⟩
        rcases List.mem_cons.mp hl with rfl | hl
        · rfl
        · rcases List.mem_cons.mp hl with rfl | hl
          · rfl
          · rw [List.mem_singleton.mp hl]
            rfl
      · exact .inr (.inl ⟨hPc, hItems⟩)
      · exact .inr (.inr ⟨hPc, hItems, hRefused⟩)
    · rintro t a u ⟨hEnd, hHead, pc, hPc, hProgress⟩ ha hStep
      obtain ⟨g, hKept⟩ := kept_of_reachable hEnd
      -- the head has only gone on since the call
      have hMany : t.base.items = s.base.items →
          indexHalf ≤ ((t.base.counters.tailIndex + tr.blockSize : Nat) : Int) -
            t.base.counters.headIndex → refused := by
        intro hItems hFar
        have hTailNow := hKept.tail_eq
        rw [hItems] at hTailNow
        exact .inr (by omega)
      obtain ⟨pc', hPc', hProgress', hLess⟩ := hKept.progress hStep hPc (hNoRet a ha) hProgress
        hMany fun hLabel => .inl ⟨a, ha, hLabel⟩
      refine ⟨⟨hEnd.step hStep, hHead.trans (head_le hStep), pc', hPc', hProgress'⟩, ?_⟩
      rw [hPc, hPc']
      exact hLess

/-- The elements of the second block are claimed, and the first is not in use. -/
def claimed : ExplicitProducer 2 Nat Nat :=
  ((nearSystem twos true 2 Nat Nat).run (nearSystem twos true 2 Nat Nat).init claimTwo).get
    (by decide +kernel)

/-- `enqueue` up to its return, while a call goes on: the first block is found
empty, reset and used again. -/
def reuseFirst : List (Label 2 Nat Nat) :=
  [.produce, .step Process.first] ++ List.replicate 7 .produce

theorem enqueue_wait_free_claimed :
    reuseFirst.countP Label.produces ≤ 2 * 2 + 5 := by
  have hRun : (nearSystem twos true 2 Nat Nat).run claimed (.enqueue 11 :: reuseFirst) = some _ :=
    (Option.some_get (by decide +kernel)).symm
  refine (enqueue_wait_free (System.Reachable.get claimTwo (by decide +kernel)) hRun ?_).1
  rintro a ha rfl
  simp [reuseFirst] at ha

end ExplicitProducer

end ThreadPool.Model
