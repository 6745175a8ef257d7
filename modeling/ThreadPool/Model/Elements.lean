import ThreadPool.Model.Filling

/-!
# ThreadPool — the elements of a sub-queue

What holds of every run of a sub-queue with its blocks, the counters being
near.

* `storage_refines_fifo` — the elements that calls return are those that were
  enqueued, in order and once each;
* `memory_safe` — nothing is read before it is written, and nothing is written
  over;
* `race_free` — no data that is not atomic is accessed by two threads at once,
  one of which writes it.
-/

namespace ThreadPool.Model

open ThreadPool.Lib

namespace ExplicitProducer

variable {T : Nat} {B τ : Type} {tr : Traits} {allocated : Bool} {s s' : ExplicitProducer T B τ}
  {g : History B}

-- ---------------------------------------------------------------------------
-- Refinement
-- ---------------------------------------------------------------------------

/-- The elements nobody has claimed, what the calls have claimed, and what they
have returned. -/
def view (s : ExplicitProducer T B τ) : SubQueue.Fifo T τ :=
  { s.base.view with got := s.returned }

theorem Kept.view_eq (h : Kept tr s g) : s.view = s.base.view := by
  unfold view
  rw [h.consumes.returned]
  rfl

variable [DecidableEq B]

/-- The counters, the elements and what the calls do with them. -/
theorem base_step {l : Label T B τ} (hStep : (nearSystem tr allocated T B τ).step s l = some s') :
    s'.base = s.base ∨ ∃ l', (SubQueue.nearSystem T τ).step s.base l' = some s'.base := by
  obtain ⟨hNear, hMove⟩ := step_cases hStep
  cases hMove with
  | enqueue | grow | refuse | deny | enqueued => exact .inl rfl
  | insert v b => exact .inl (insertBlock_frame b).1
  | produce pc pc' t hPc hAccess =>
    rcases (stepEnqueue_frame hAccess).2 with hSame | ⟨v, hBase⟩
    · exact .inl hSame
    · exact .inr ⟨.enqueue [v], System.restrict_step.mpr ⟨rfl, hBase⟩⟩
  | step i max index actualCount t r hCall hAccess => exact .inl (stepDequeue_frame hAccess).1
  | claim i base hNot hBase => exact .inr ⟨.step i, System.restrict_step.mpr ⟨hNear, hBase⟩⟩
  | call i max base hMax hBase => exact .inr ⟨.call i max, System.restrict_step.mpr ⟨rfl, hBase⟩⟩
  | ret i max index actualCount got base hCall hDone hBase =>
    exact .inr ⟨.ret i, System.restrict_step.mpr ⟨rfl, hBase⟩⟩
  | empty i max base hCall hBase => exact .inr ⟨.ret i, System.restrict_step.mpr ⟨rfl, hBase⟩⟩

/-- Blocks of two elements, and room for two of them in the first block index. -/
def twos : Traits := ⟨2, 1, by decide, by decide, by decide⟩

/-- Two elements go into a new block `b`, after `k` accesses. -/
def fill (v w b k : Nat) : List (Label 2 Nat Nat) :=
  List.flatten [[.enqueue v], List.replicate k .produce, [.requisition (some b)],
    List.replicate 4 .produce, [.enqueued, .enqueue w, .produce, .produce, .enqueued]]

/-- A call for `max` elements, up to where it has loaded `front`. -/
def look (max : Nat) : List (Label 2 Nat Nat) :=
  [.call Process.first max] ++ List.replicate 8 (.step Process.first)

/-- The block index is full when a call looks into it. -/
def fillTwo : List (Label 2 Nat Nat) := fill 7 8 0 2 ++ fill 9 10 1 3 ++ look 3

/-- The third block needs a new block index; the call goes on with the old. -/
def growIndex : List (Label 2 Nat Nat) :=
  List.flatten [[.enqueue 11, .produce, .produce, .grow true, .requisition (some 2)],
    List.replicate 4 .produce, [.enqueued], List.replicate 9 (.step Process.first)]

def growAndReturn : List (Label 2 Nat Nat) := List.flatten [growIndex, [.ret Process.first]]

def looking : ExplicitProducer 2 Nat Nat :=
  ((nearSystem twos true 2 Nat Nat).run (nearSystem twos true 2 Nat Nat).init fillTwo).get
    (by decide +kernel)

def grown : ExplicitProducer 2 Nat Nat :=
  ((nearSystem twos true 2 Nat Nat).run looking growAndReturn).get (by decide +kernel)

example : grown.returned = [(Process.first, [7, 8, 9])] := by decide +kernel

omit [DecidableEq B] in
/-- A call that looks for its elements has indices. -/
theorem Kept.claimed_of (h : Kept tr s g) {i : Fin T} {r : Dequeue B τ}
    (hAt : s.dequeueing i = some r) :
    ∃ max index actualCount, s.base.calls i = some (max, .claimed index actualCount) := by
  by_contra hNot
  have hNone := h.consumes.idle i fun max index actualCount hCall =>
    hNot ⟨max, index, actualCount, hCall⟩
  rw [hNone] at hAt
  cases hAt

theorem Kept.canStep (h : Kept tr s g) {i : Fin T} {max index actualCount : Nat}
    (hCall : s.base.calls i = some (max, .claimed index actualCount))
    (hMore : ∀ got, s.dequeueing i ≠ some (.done got)) :
    ∃ t r, stepDequeue tr s index actualCount (s.dequeueing i) = some (t, r) ∧
      (nearSystem tr allocated T B τ).step s (.step i) =
        some { t with dequeueing := Function.update t.dequeueing i (some r) } := by
  obtain ⟨t, r, g', hAccess, -⟩ := h.goes hCall hMore
  refine ⟨t, r, hAccess, System.restrict_step.mpr ⟨?_, ?_⟩⟩
  · simp only [near, hCall, Option.all_some]
    rfl
  · show ExplicitProducer.step tr s (.step i) = _
    simp only [ExplicitProducer.step, hCall, hAccess, Option.map_some]

/-- The producer finds the blocks and the block index that it follows pointers
to. -/
theorem Kept.canProduce (h : Kept tr s g) {pc : Enqueue τ} (hPc : s.enqueueing = some pc)
    (hMore : ∀ ok, pc ≠ .returning ok) :
    ∃ l t, l ∈ [Label.produce, .grow false, .requisition none] ∧
      (nearSystem tr allocated T B τ).step s l = some t := by
  have hSize := Traits.blockSize_pos tr
  have hFilling := h.produces.filling
  have hAccess : ∀ {t : ExplicitProducer T B τ} {pc' : Enqueue τ},
      stepEnqueue tr s pc = some (t, pc') → ∃ l t, l ∈ [Label.produce, .grow false,
        .requisition none] ∧ (nearSystem tr allocated T B τ).step s l = some t := by
    intro t pc' hStep
    refine ⟨.produce, { t with enqueueing := some pc' }, List.mem_cons_self,
      System.restrict_step.mpr ⟨rfl, ?_⟩⟩
    show ExplicitProducer.step tr s .produce = _
    simp only [ExplicitProducer.step, hPc, hStep, Option.map_some]
  rw [hPc] at hFilling
  have hIndexed : 0 < g.blocks.length → s.blockIndex ≠ 0 := by
    intro hSome hZero
    rw [h.produces.indexed hZero] at hSome
    exact Nat.lt_irrefl 0 hSome
  -- the tail is before the end of a block, so there is one
  have hEnd : s.base.counters.tailIndex + tr.blockSize = g.blocks.length * tr.blockSize →
      0 < g.blocks.length := by
    intro hFull
    refine Nat.pos_of_ne_zero fun hZero => ?_
    rw [hZero, Nat.zero_mul] at hFull
    omega
  cases pc with
  | checking v j =>
    obtain ⟨t, ht, hNewest⟩ := h.produces.newest (by rw [hPc]; rfl) hFilling.1
    rw [← List.getLast?_eq_getElem?] at hNewest
    obtain ⟨n, -, hn⟩ := h.produces.ring.next_last hNewest
    have hNext : s.nextBlock = some n := by
      rw [nextBlock, ht]
      exact hn
    exact hAccess (by rw [stepEnqueue, hNext]; rfl)
  | reusing v j =>
    have hIn := h.produces.ring.start_lt (List.ne_nil_of_length_pos hFilling.1)
    have hTail := (h.produces.oldest hPc).trans (List.getElem?_eq_getElem hIn)
    exact hAccess (by rw [stepEnqueue, hTail]; rfl)
  | measuring v => exact hAccess rfl
  | indexing v =>
    by_cases hFull : s.blockIndex = 0 ∨ s.slotsUsed = s.header.size
    · refine ⟨.grow false, { s with enqueueing := some (.returning false) },
        List.mem_cons_of_mem _ List.mem_cons_self, System.restrict_step.mpr ⟨rfl, ?_⟩⟩
      show ExplicitProducer.step tr s (.grow false) = _
      simp only [ExplicitProducer.step, hPc, if_pos hFull, Bool.false_eq_true, if_false]
    · exact hAccess (by rw [stepEnqueue, if_neg hFull])
  | requisitioning v =>
    refine ⟨.requisition none, { s with enqueueing := some (.returning false) },
      List.mem_cons_of_mem _ (List.mem_cons_of_mem _ List.mem_cons_self),
      System.restrict_step.mpr ⟨rfl, ?_⟩⟩
    show ExplicitProducer.step tr s (.requisition none) = _
    simp only [ExplicitProducer.step, hPc]
  | listing v =>
    have hSome := hEnd hFilling
    obtain ⟨t, ht, -⟩ := h.produces.newest (by rw [hPc]; rfl) hSome
    exact hAccess (by rw [stepEnqueue, if_neg (hIndexed hSome), ht]; rfl)
  | fronting v =>
    exact hAccess (by rw [stepEnqueue, if_neg (hIndexed (hEnd hFilling))])
  | constructing v =>
    obtain ⟨t, ht, -⟩ := h.produces.tail_number hPc
    exact hAccess (by rw [stepEnqueue, ht]; rfl)
  | storing v => exact hAccess rfl
  | returning ok => exact absurd rfl (hMore ok)

/-- **Memory is used as it should be.** A call reads no entry that has not been
written and moves out no element that is not there; the producer follows no
null pointer, and it constructs its elements in raw memory; and a flag that a
call sets is a flag of the block, clear before. -/
theorem memory_safe (h : (nearSystem tr allocated T B τ).Reachable s) :
    (∀ i max index actualCount, s.base.calls i = some (max, .claimed index actualCount) →
      (∀ got, s.dequeueing i ≠ some (.done got)) →
        ∃ t, (nearSystem tr allocated T B τ).step s (.step i) = some t) ∧
      (∀ pc, s.enqueueing = some pc → (∀ ok, pc ≠ .returning ok) →
        ∃ l t, l ∈ [Label.produce, .grow false, .requisition none] ∧
          (nearSystem tr allocated T B τ).step s l = some t) ∧
      (∀ v t, s.enqueueing = some (.constructing v) → s.tailBlock = some t →
        (s.block t).elements (s.base.counters.tailIndex % tr.blockSize) = none) ∧
      ∀ i hd indexIndex b first x j got,
        s.dequeueing i = some (.emptying hd indexIndex b first x j got) →
        ∃ o, o < tr.blockSize ∧
          (tr.blockSize : Int) - 1 - (first % tr.blockSize : Nat) - (x - first : Nat) + 1 + j = o ∧
          (s.block b).emptyFlags o = false := by
  obtain ⟨g, hKept⟩ := kept_of_reachable h
  refine ⟨?_, ?_, ?_, ?_⟩
  · intro i max index actualCount hCall hMore
    obtain ⟨t, r, -, hStep⟩ := hKept.canStep hCall hMore
    exact ⟨_, hStep⟩
  · intro pc hPc hMore
    exact hKept.canProduce hPc hMore
  · intro v t hPc hTail
    obtain ⟨t', hTail', hBlock, hStart⟩ := hKept.produces.tail_number hPc
    obtain rfl : t = t' := Option.some.inj (hTail.symm.trans hTail')
    have hPending : Enqueue.pending s.enqueueing = [] := by rw [hPc]; rfl
    have hItems := hKept.tail_eq
    have hElement := hKept.stored.element _ t (by rw [hPc]; exact hStart) hBlock
    rw [hElement, hPending, List.append_nil, List.getElem?_eq_none (by omega), ite_self]
  · intro i hd indexIndex b first x j got hAt
    obtain ⟨max, index, actualCount, hCall⟩ := hKept.claimed_of hAt
    have hReads := hKept.reads hCall hAt
    obtain ⟨-, -, -, hLow, hMore, hLast, hBlock, -⟩ := hReads.fits
    have hEnd := claimedEnd_le tr index actualCount first
    obtain ⟨y, hy⟩ : ∃ y, y + 1 + j = x := ⟨x - j - 1, by omega⟩
    obtain ⟨hDiv, hPlace⟩ := flag_place hy (by omega) hLast
    have hEmptied : Dequeue.emptied y (s.dequeueing i) = false := by
      rw [hAt]
      exact decide_eq_false (by omega)
    have hStart := hKept.resetting_le hCall (x := y) (by omega) (by omega) hEmptied
    refine ⟨tr.blockSize - 1 - y % tr.blockSize, by omega, hPlace, ?_⟩
    rw [hKept.stored.flag y b hStart (hDiv ▸ hBlock), hReads.emptied y (by omega) (by omega), ← hAt]
    exact hEmptied

/-- `enqueue` comes to a producer whose constructor got no block index. -/
def enqueueBare : List (Label 2 Nat Nat) := [.enqueue 7, .produce]

def unindexed : ExplicitProducer 2 Nat Nat :=
  ((nearSystem twos false 2 Nat Nat).run (nearSystem twos false 2 Nat Nat).init enqueueBare).get
    (by decide +kernel)

theorem memory_safe_looking :
    (∃ t, (nearSystem twos true 2 Nat Nat).step looking (.step Process.first) = some t) ∧
      ∃ l t, l ∈ [Label.produce, .grow false, .requisition none] ∧
        (nearSystem twos false 2 Nat Nat).step unindexed l = some t :=
  ⟨(memory_safe (System.Reachable.get fillTwo (by decide +kernel))).1 Process.first 3 0 3 rfl
      (fun _ hDone => by cases hDone),
    (memory_safe (System.Reachable.get enqueueBare (by decide +kernel))).2.1 (.indexing 7) rfl
      (fun _ hReturning => by cases hReturning)⟩

-- ---------------------------------------------------------------------------
-- Races
-- ---------------------------------------------------------------------------

/-- Data that is not atomic. -/
inductive Cell (B : Type)
  | entry (blockIndex : Nat) (place : Int)
  | element (block : B) (position : Nat)

/-- What the producer is about to write. -/
def writes (tr : Traits) (s : ExplicitProducer T B τ) : Option (Cell B) :=
  match s.enqueueing with
  | some (.listing _) => some (.entry s.blockIndex s.front)
  | some (.constructing _) =>
    s.tailBlock.map fun t => .element t (s.base.counters.tailIndex % tr.blockSize)
  | _ => none

/-- What a call is about to read, or to move out and destroy. -/
def Dequeue.accesses (tr : Traits) : Option (Dequeue B τ) → Option (Cell B)
  | some (.front h head) => some (.entry h head)
  | some (.block h indexIndex _ _) => some (.entry h indexIndex)
  | some (.element _ _ b _ i _) => some (.element b (i % tr.blockSize))
  | _ => none

/-- The block that a call is at work in. -/
def Dequeue.inside : Option (Dequeue B τ) → Option B
  | some (.element _ _ b _ _ _) => some b
  | some (.emptying _ _ b _ _ _ _) => some b
  | _ => none

omit [DecidableEq B] in
/-- The entry that a call is about to read is that of a block in the ring. -/
theorem Kept.entry_number (h : Kept tr s g) {i : Fin T} {hd : Nat} {place : Int}
    (hAccess : Dequeue.accesses tr (s.dequeueing i) = some (.entry hd place)) :
    hd ≤ s.blockIndex ∧ ∃ m, place = slot (s.headers hd).size (g.place hd) m ∧ g.start ≤ m ∧
      m < g.written hd := by
  have hSize := Traits.blockSize_pos tr
  cases hAt : s.dequeueing i with
  | none =>
    rw [hAt] at hAccess
    cases hAccess
  | some r =>
    obtain ⟨max, index, actualCount, hCall⟩ := h.claimed_of hAt
    have hFits := (h.reads hCall hAt).fits
    have hSized := (h.consumes.sized i max _ hCall).1
    rw [hAt] at hAccess
    cases r with
    | front hd' head =>
      cases hAccess
      obtain ⟨hHeader, m, hHead, hWritten, hCovers⟩ := hFits
      have hStart := h.start_le hCall le_rfl (by omega) (by rw [hAt]; rfl)
      have hNumber : index / tr.blockSize < m + 1 :=
        (Nat.div_lt_iff_lt_mul hSize).mpr (by omega)
      exact ⟨hHeader, m, hHead, by omega, hWritten⟩
    | block hd' indexIndex x got =>
      cases hAccess
      obtain ⟨hHeader, hIndex, hCovers, hLow, hHigh, -⟩ := hFits
      have hStart := h.start_le hCall hLow hHigh (by
        rw [hAt]
        exact decide_eq_false (Nat.lt_irrefl x))
      have hNumber : x / tr.blockSize < g.written hd :=
        (Nat.div_lt_iff_lt_mul hSize).mpr (by omega)
      exact ⟨hHeader, _, hIndex, hStart, hNumber⟩
    | _ => cases hAccess

omit [DecidableEq B] in
/-- The element that a call is about to move out is one of its own. -/
theorem Kept.element_number (h : Kept tr s g) {i : Fin T} {b : B} {o : Nat}
    (hAccess : Dequeue.accesses tr (s.dequeueing i) = some (.element b o)) :
    ∃ max index actualCount x, s.base.calls i = some (max, .claimed index actualCount) ∧
      index ≤ x ∧ x < index + actualCount ∧ o = x % tr.blockSize ∧
      g.start ≤ x / tr.blockSize ∧ g.blocks[x / tr.blockSize]? = some b := by
  cases hAt : s.dequeueing i with
  | none =>
    rw [hAt] at hAccess
    cases hAccess
  | some r =>
    obtain ⟨max, index, actualCount, hCall⟩ := h.claimed_of hAt
    have hFits := (h.reads hCall hAt).fits
    rw [hAt] at hAccess
    cases r with
    | element hd indexIndex b' first x got =>
      cases hAccess
      obtain ⟨-, -, -, hLow, hFirst, hHigh, hBlock, -⟩ := hFits
      have hEnd := claimedEnd_le tr index actualCount first
      rw [← div_eq_of_lt_claimedEnd hFirst hHigh] at hBlock
      have hStart := h.start_le hCall (x := x) (by omega) (by omega) (by
        rw [hAt]
        exact decide_eq_false (by omega))
      exact ⟨max, index, actualCount, x, hCall, by omega, by omega, rfl, hStart, hBlock⟩
    | _ => cases hAccess

omit [DecidableEq B] in
/-- A block that a call is at work in is in the ring, and not being reset. -/
theorem Kept.inside_number (h : Kept tr s g) {i : Fin T} {b : B}
    (hInside : Dequeue.inside (s.dequeueing i) = some b) :
    ∃ y, g.start + Enqueue.resetting s.enqueueing ≤ y / tr.blockSize ∧
      g.blocks[y / tr.blockSize]? = some b := by
  cases hAt : s.dequeueing i with
  | none =>
    rw [hAt] at hInside
    cases hInside
  | some r =>
    obtain ⟨max, index, actualCount, hCall⟩ := h.claimed_of hAt
    have hFits := (h.reads hCall hAt).fits
    have hOwn : ∀ y, index ≤ y → y < index + actualCount → Dequeue.emptied y (some r) = false →
        g.blocks[y / tr.blockSize]? = some b →
        ∃ y, g.start + Enqueue.resetting s.enqueueing ≤ y / tr.blockSize ∧
          g.blocks[y / tr.blockSize]? = some b := by
      intro y hLow hHigh hNot hBlock
      exact ⟨y, h.resetting_le hCall hLow hHigh (hAt ▸ hNot), hBlock⟩
    rw [hAt] at hInside
    cases r with
    | element hd indexIndex b' first x got =>
      cases hInside
      obtain ⟨-, -, -, hLow, hFirst, hHigh, hBlock, -⟩ := hFits
      have hEnd := claimedEnd_le tr index actualCount first
      rw [← div_eq_of_lt_claimedEnd hFirst hHigh] at hBlock
      exact hOwn x (by omega) (by omega) (decide_eq_false (by omega)) hBlock
    | emptying hd indexIndex b' first x j got =>
      cases hInside
      obtain ⟨-, -, -, hLow, hMore, hLast, hBlock, -⟩ := hFits
      have hEnd := claimedEnd_le tr index actualCount first
      obtain ⟨y, hy⟩ : ∃ y, y + 1 + j = x := ⟨x - j - 1, by omega⟩
      rw [← (flag_place hy (by omega) hLast).1] at hBlock
      exact hOwn y (by omega) (by omega) (decide_eq_false (by omega)) hBlock
    | _ => cases hInside

omit [DecidableEq B] in
/-- In the ring, a place has one index. -/
theorem Kept.index_eq (h : Kept tr s g) {b : B} {x y : Nat} (hx : g.start ≤ x / tr.blockSize)
    (hy : g.start ≤ y / tr.blockSize) (hBlockX : g.blocks[x / tr.blockSize]? = some b)
    (hBlockY : g.blocks[y / tr.blockSize]? = some b) (hMod : x % tr.blockSize = y % tr.blockSize) :
    x = y := by
  have hDiv := h.produces.ring.number_eq hx hy hBlockX hBlockY
  rw [← Nat.div_add_mod x tr.blockSize, ← Nat.div_add_mod y tr.blockSize, hDiv, hMod]

/-- **No races.** The producer never writes an entry that a call is about to
read nor constructs an element where a call is about to move one out; no two
calls move out the same element; and a block is not reset while a call is at
work in it. -/
theorem race_free (h : (nearSystem tr allocated T B τ).Reachable s) :
    (∀ i c, Dequeue.accesses tr (s.dequeueing i) = some c → s.writes tr ≠ some c) ∧
      (∀ i j b o, i ≠ j → Dequeue.accesses tr (s.dequeueing i) = some (.element b o) →
        Dequeue.accesses tr (s.dequeueing j) ≠ some (.element b o)) ∧
      ∀ v j t, s.enqueueing = some (.reusing v j) → s.tailBlock = some t →
        ∀ i, Dequeue.inside (s.dequeueing i) ≠ some t := by
  obtain ⟨g, hKept⟩ := kept_of_reachable h
  refine ⟨?_, ?_, ?_⟩
  · intro i c hAccess hWrites
    unfold writes at hWrites
    split at hWrites
    · next v hPc =>
      cases hWrites
      obtain ⟨-, m, hPlace, hStart, hWritten⟩ := hKept.entry_number hAccess
      have hProduces := hKept.produces
      have hNumbers := hProduces.written
      have hFronts := hProduces.shown
      rw [hPc] at hNumbers hFronts
      replace hNumbers : g.written s.blockIndex + 1 = g.blocks.length := hNumbers
      replace hFronts : g.shown s.blockIndex + 1 = g.blocks.length := hFronts
      have hUsed := hProduces.used
      have hRoom := hProduces.room
      rw [hProduces.front] at hPlace
      have hEq := slot_injOn (by omega) (by omega) hPlace.symm
      omega
    · next v hPc =>
      obtain ⟨t, hTail, hCell⟩ := Option.map_eq_some_iff.mp hWrites
      subst hCell
      obtain ⟨max, index, actualCount, x, hCall, hLow, hHigh, hMod, hStart, hBlock⟩ :=
        hKept.element_number hAccess
      obtain ⟨t', hTail', hNewest, hIn⟩ := hKept.produces.tail_number hPc
      obtain rfl : t = t' := Option.some.inj (hTail.symm.trans hTail')
      have hEq := hKept.index_eq hIn hStart hNewest hBlock hMod
      have hClaimed := hKept.claimed_le hCall
      have hHead := hKept.head_le
      have hItems := hKept.tail_eq
      omega
    · cases hWrites
  · intro i j b o hNe hAccess hOther
    obtain ⟨max, index, actualCount, x, hCall, hLow, hHigh, hMod, hStart, hBlock⟩ :=
      hKept.element_number hAccess
    obtain ⟨max', index', actualCount', x', hCall', hLow', hHigh', hMod', hStart', hBlock'⟩ :=
      hKept.element_number hOther
    have hEq := hKept.index_eq hStart hStart' hBlock hBlock' (hMod.symm.trans hMod')
    have hApart := hKept.consumes.apart i j max max' index index' actualCount actualCount' hNe
      hCall hCall'
    omega
  · intro v j t hPc hTail i hInside
    obtain ⟨y, hStart, hBlock⟩ := hKept.inside_number hInside
    rw [hPc] at hStart
    replace hStart : g.start + 1 ≤ y / tr.blockSize := hStart
    have hOldest := (hKept.produces.oldest hPc).symm.trans hTail
    have hEq := hKept.produces.ring.number_eq (by omega) le_rfl hBlock hOldest
    omega

/-- A call has loaded `front`, and the producer is about to write an entry. -/
def listNext : List (Label 2 Nat Nat) :=
  fill 7 8 0 2 ++ look 2 ++ [.enqueue 9, .produce, .produce, .produce, .requisition (some 1)]

def listing : ExplicitProducer 2 Nat Nat :=
  ((nearSystem twos true 2 Nat Nat).run (nearSystem twos true 2 Nat Nat).init listNext).get
    (by decide +kernel)

/-- The elements of the first block are dequeued, and those of the second are
claimed. -/
def claimTwo : List (Label 2 Nat Nat) :=
  List.flatten [fill 7 8 0 2, fill 9 10 1 3, [.call Process.second 2],
    List.replicate 14 (.step Process.second), [.ret Process.second, .call Process.first 2],
    List.replicate 10 (.step Process.first)]

/-- The first block is about to be reset. -/
def resetFirst : List (Label 2 Nat Nat) := claimTwo ++ [.enqueue 11, .produce, .produce]

def resetting : ExplicitProducer 2 Nat Nat :=
  ((nearSystem twos true 2 Nat Nat).run (nearSystem twos true 2 Nat Nat).init resetFirst).get
    (by decide +kernel)

theorem race_free_listing :
    listing.writes twos ≠ some (.entry 1 0) ∧
      Dequeue.inside (resetting.dequeueing Process.first) ≠ some 0 :=
  ⟨(race_free (System.Reachable.get listNext (by decide +kernel))).1 Process.first (.entry 1 0) rfl,
    (race_free (System.Reachable.get resetFirst (by decide +kernel))).2.2 11 0 0 rfl rfl
      Process.first⟩

end ExplicitProducer

end ThreadPool.Model
