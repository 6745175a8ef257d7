import ThreadPool.Model.Storage

/-!
# ThreadPool — filling the blocks

The producer keeps the invariant of `Model/Storage.lean`. What calls in
progress remember stays true (`Dequeue.Fits.mono`), because the producer only
adds to what they know of: a block index is extended in place, over entries
whose blocks are in use again, or it is replaced by one of twice its size.

* `Kept.takeAhead`, `Kept.reset`, `Kept.reuse`, `Kept.insert` — the next block;
* `Kept.grow`, `Kept.list`, `Kept.show` — its entry in the block index;
* `Kept.construct`, `Kept.store` — the element;
* `kept_of_reachable` — every run keeps the invariant.
-/

namespace ThreadPool.Model

open ThreadPool.Lib

namespace ExplicitProducer

variable {T : Nat} {B τ : Type} {tr : Traits} {allocated : Bool} {s s' : ExplicitProducer T B τ}
  {g g' : History B}

-- ---------------------------------------------------------------------------
-- The producer
-- ---------------------------------------------------------------------------

/-- What a call remembers stays true while blocks and elements come behind the
others and block indices are extended or replaced. -/
theorem Dequeue.Fits.mono {index actualCount : Nat} {r : Option (Dequeue B τ)}
    (h : Dequeue.Fits tr s g index actualCount r) (hIndex : s.blockIndex ≤ s'.blockIndex)
    (hHeaders : ∀ hd, hd ≤ s.blockIndex → (s'.headers hd).size = (s.headers hd).size ∧
      g'.place hd = g.place hd ∧ g.written hd ≤ g'.written hd ∧ g.shown hd ≤ g'.shown hd)
    (hBlocks : ∀ (q : Nat) (b : B), g.blocks[q]? = some b → g'.blocks[q]? = some b)
    (hItems : ∀ m, m ≤ actualCount →
      (s'.base.items.drop index).take m = (s.base.items.drop index).take m) :
    Dequeue.Fits tr s' g' index actualCount r := by
  have hMore : ∀ {k m m' : Nat}, k ≤ m * tr.blockSize → m ≤ m' → k ≤ m' * tr.blockSize :=
    fun hk hm => hk.trans (Nat.mul_le_mul_right _ hm)
  cases r with
  | none => trivial
  | some r =>
    cases r with
    | header hd =>
      obtain ⟨hLe, hCovers⟩ := h
      exact ⟨hLe.trans hIndex, hMore hCovers (hHeaders hd hLe).2.2.2⟩
    | front hd head =>
      obtain ⟨hLe, m, hHead, hWritten, hCovers⟩ := h
      obtain ⟨hSize, hPlace, hLater, -⟩ := hHeaders hd hLe
      exact ⟨hLe.trans hIndex, m, by rw [hSize, hPlace, hHead], hWritten.trans_le hLater, hCovers⟩
    | block hd indexIndex x got =>
      obtain ⟨hLe, hPlaceAt, hCovers, hLow, hHigh, hGot⟩ := h
      obtain ⟨hSize, hPlace, hLater, -⟩ := hHeaders hd hLe
      exact ⟨hLe.trans hIndex, by rw [hSize, hPlace, hPlaceAt], hMore hCovers hLater, hLow, hHigh,
        by rw [hItems _ (by omega), hGot]⟩
    | element hd indexIndex b first x got =>
      obtain ⟨hLe, hPlaceAt, hCovers, hLow, hFirst, hHigh, hBlock, hGot⟩ := h
      obtain ⟨hSize, hPlace, hLater, -⟩ := hHeaders hd hLe
      have hEnd := claimedEnd_le tr index actualCount first
      exact ⟨hLe.trans hIndex, by rw [hSize, hPlace, hPlaceAt], hMore hCovers hLater, hLow, hFirst,
        hHigh, hBlocks _ b hBlock, by rw [hItems _ (by omega), hGot]⟩
    | emptying hd indexIndex b first x j got =>
      obtain ⟨hLe, hPlaceAt, hCovers, hLow, hMoreFlags, hLast, hBlock, hGot⟩ := h
      obtain ⟨hSize, hPlace, hLater, -⟩ := hHeaders hd hLe
      have hEnd := claimedEnd_le tr index actualCount first
      exact ⟨hLe.trans hIndex, by rw [hSize, hPlace, hPlaceAt], hMore hCovers hLater, hLow,
        hMoreFlags, hLast, hBlocks _ b hBlock, by rw [hItems _ (by omega), hGot]⟩
    | done got =>
      show got = (s'.base.items.drop index).take actualCount
      rw [hItems _ le_rfl]
      exact h

/-- What the producer does leaves the consumers' side as it is. -/
theorem Kept.produce (h : Kept tr s g) (l : List B) (vs : List τ)
    (hCalls : s'.base.calls = s.base.calls) (hItems : s'.base.items = s.base.items ++ vs)
    (hGot : s'.base.got = s.base.got) (hDequeueing : s'.dequeueing = s.dequeueing)
    (hReturned : s'.returned = s.returned) (hIndex : s.blockIndex ≤ s'.blockIndex)
    (hBlocks : g'.blocks = g.blocks ++ l) (hMoved : g'.moved = g.moved)
    (hEmptied : g'.emptied = g.emptied)
    (hHeaders : ∀ hd, hd ≤ s.blockIndex → (s'.headers hd).size = (s.headers hd).size ∧
      g'.place hd = g.place hd ∧ g.written hd ≤ g'.written hd ∧ g.shown hd ≤ g'.shown hd) :
    Consumes tr s' g' := by
  refine ⟨?_, ?_, ?_, ?_, ?_⟩
  · rw [hCalls]
    exact h.consumes.sized
  · intro i max index actualCount hCall
    rw [hCalls] at hCall
    have hOld := h.consumes.reads i max index actualCount hCall
    have hClaimed := (h.claimed_le hCall).trans h.head_le
    rw [hDequeueing]
    refine ⟨hMoved ▸ hOld.moved, hEmptied ▸ hOld.emptied,
      Dequeue.Fits.mono hOld.fits hIndex hHeaders ?_ ?_⟩
    · intro q b hb
      rw [hBlocks, List.getElem?_append_left (List.getElem?_eq_some_iff.mp hb).1, hb]
    · intro m hm
      rw [hItems, List.drop_append_of_le_length (by omega),
        List.take_append_of_le_length (by rw [List.length_drop]; omega)]
  · rw [hCalls]
    exact h.consumes.apart
  · rw [hCalls, hDequeueing]
    exact h.consumes.idle
  · rw [hReturned, hGot]
    exact h.consumes.returned

/-- What changes nothing that calls look at leaves their side as it is, too. -/
theorem Kept.undisturbed (h : Kept tr s g) (hBase : s'.base = s.base)
    (hDequeueing : s'.dequeueing = s.dequeueing) (hReturned : s'.returned = s.returned)
    (hIndex : s'.blockIndex = s.blockIndex) (hHeaders : s'.headers = s.headers) :
    Consumes tr s' g :=
  h.produce [] [] (by rw [hBase]) (by rw [hBase, List.append_nil]) (by rw [hBase]) hDequeueing
    hReturned hIndex.ge (List.append_nil _).symm rfl rfl
    fun _ _ => ⟨by rw [hHeaders], rfl, le_rfl, le_rfl⟩

/-- The producer goes on without touching anything. -/
theorem Kept.turn (h : Kept tr s g) (pc : Option (Enqueue τ))
    (hSame : Enqueue.pending pc = Enqueue.pending s.enqueueing ∧
      Enqueue.unwritten pc = Enqueue.unwritten s.enqueueing ∧
      Enqueue.unshown pc = Enqueue.unshown s.enqueueing ∧
      Enqueue.resetting pc = Enqueue.resetting s.enqueueing)
    (hFilling : Enqueue.Filling tr s.base.counters.tailIndex g.blocks.length pc)
    (hSeen : ∀ c, g.blocks[g.start]? = some c → Enqueue.Seen tr (s.block c) pc)
    (hSpace : ∀ v, pc = some (.requisitioning v) →
      s.blockIndex ≠ 0 ∧ s.slotsUsed < (s.headers s.blockIndex).size) :
    Kept tr { s with enqueueing := pc } g where
  base := h.base
  stored := by
    dsimp only
    rw [hSame.1, hSame.2.2.2]
    exact h.stored
  produces :=
    { ring := h.produces.ring
      tail := by
        dsimp only
        rw [h.produces.tail, Enqueue.tail, Enqueue.tail, hSame.2.2.2]
      owned := h.produces.owned
      used := h.produces.used
      room := h.produces.room
      listed := h.produces.listed
      front := h.produces.front
      written := hSame.2.1 ▸ h.produces.written
      shown := hSame.2.2.1 ▸ h.produces.shown
      filling := hFilling
      seen := hSeen
      space := hSpace
      indexed := h.produces.indexed
      null := h.produces.null }
  consumes := h.undisturbed rfl rfl rfl rfl rfl

/-- The tail is at the end of the blocks when it is at the end of a block. -/
theorem tail_eq_of_mod {tail n : Nat} (hLe : tail ≤ n * tr.blockSize)
    (hLt : n * tr.blockSize < tail + tr.blockSize) (hMod : tail % tr.blockSize = 0) :
    tail = n * tr.blockSize := by
  have hTail : tail / tr.blockSize * tr.blockSize = tail := Nat.div_mul_cancel
    (Nat.dvd_of_mod_eq_zero hMod)
  have hDiv : tail / tr.blockSize ≤ n := Nat.div_le_of_le_mul (by rwa [Nat.mul_comm])
  have hGe : n < tail / tr.blockSize + 1 := by
    refine Nat.lt_of_mul_lt_mul_right (a := tr.blockSize) ?_
    rw [Nat.add_mul, Nat.one_mul, hTail]
    exact hLt
  rw [← hTail, show tail / tr.blockSize = n by omega]

/-- `enqueue` returns false at the end of a block. -/
theorem Kept.giveUp (h : Kept tr s g)
    (hSame : [] = Enqueue.pending s.enqueueing ∧ 0 = Enqueue.unwritten s.enqueueing ∧
      0 = Enqueue.unshown s.enqueueing ∧ 0 = Enqueue.resetting s.enqueueing)
    (hTail : s.base.counters.tailIndex = g.blocks.length * tr.blockSize) :
    Kept tr { s with enqueueing := some (.returning false) } g := by
  have hSize := Traits.blockSize_pos tr
  refine h.turn (some (.returning false)) hSame ⟨by omega, by omega⟩ (fun _ _ => trivial) ?_
  intro v hEq
  cases hEq

theorem Kept.start (h : Kept tr s g) (hIdle : s.enqueueing = none) (v : τ) :
    Kept tr { s with enqueueing := some (startEnqueue tr s v) } g := by
  have hSize := Traits.blockSize_pos tr
  have hFilling := h.produces.filling
  rw [hIdle] at hFilling
  obtain ⟨hLe, hLt⟩ := hFilling
  unfold startEnqueue
  split
  · next hMod =>
    have hTail := tail_eq_of_mod hLe hLt hMod
    split
    · next t hBlock =>
      have hNe : g.blocks ≠ [] := by
        intro hNil
        have hTailBlock := h.produces.tail
        rw [hBlock, hNil, hIdle] at hTailBlock
        cases hTailBlock
      refine h.turn (some (.checking v 0)) (hIdle ▸ ⟨rfl, rfl, rfl, rfl⟩)
        ⟨List.length_pos_iff.mpr hNe, hTail⟩ ?_ ?_
      · intro c _
        exact ⟨hSize, fun j hj => absurd hj (Nat.not_lt_zero j)⟩
      · intro v' hPc
        cases hPc
    · refine h.turn (some (.measuring v)) (hIdle ▸ ⟨rfl, rfl, rfl, rfl⟩) hTail
        (fun _ _ => trivial) ?_
      intro v' hPc
      cases hPc
  · next hMod =>
    have hNe : s.base.counters.tailIndex ≠ g.blocks.length * tr.blockSize := by
      intro hEq
      exact hMod (by rw [hEq, Nat.mul_mod_left])
    refine h.turn (some (.constructing v)) (hIdle ▸ ⟨rfl, rfl, rfl, rfl⟩) ⟨by omega, by omega⟩
      (fun _ _ => trivial) ?_
    intro v' hPc
    cases hPc

/-- The newest block is the tail block, while none is being reset. -/
theorem Produces.newest (h : Produces tr s g) (hNot : Enqueue.resetting s.enqueueing = 0)
    (hSome : 0 < g.blocks.length) :
    ∃ t, s.tailBlock = some t ∧ g.blocks[g.blocks.length - 1]? = some t := by
  have hLt : g.blocks.length - 1 < g.blocks.length := by omega
  refine ⟨g.blocks[g.blocks.length - 1], ?_, List.getElem?_eq_getElem hLt⟩
  rw [h.tail, Enqueue.tail, if_pos hNot, List.getLast?_eq_getElem?, List.getElem?_eq_getElem hLt]

/-- The oldest block is the tail block, while it is being reset. -/
theorem Produces.oldest (h : Produces tr s g) {v : τ} {j : Nat}
    (hPc : s.enqueueing = some (.reusing v j)) : s.tailBlock = g.blocks[g.start]? := by
  rw [h.tail, Enqueue.tail, hPc]
  rfl

/-- The tail is in the newest block while there is room in it. -/
theorem Produces.tail_number (h : Produces tr s g) {v : τ}
    (hPc : s.enqueueing = some (.constructing v)) :
    ∃ t, s.tailBlock = some t ∧
      g.blocks[s.base.counters.tailIndex / tr.blockSize]? = some t ∧
      g.start ≤ s.base.counters.tailIndex / tr.blockSize := by
  have hSize := Traits.blockSize_pos tr
  have hFilling := h.filling
  rw [hPc] at hFilling
  obtain ⟨hLt, hLe⟩ := hFilling
  have hSome : 0 < g.blocks.length := by
    refine Nat.pos_of_ne_zero fun hZero => ?_
    rw [hZero, Nat.zero_mul] at hLt
    omega
  obtain ⟨t, hTail, hNewest⟩ := h.newest (by rw [hPc]; rfl) hSome
  have hUp : s.base.counters.tailIndex / tr.blockSize < g.blocks.length :=
    (Nat.div_lt_iff_lt_mul hSize).mpr hLt
  have hDown : g.blocks.length - 1 ≤ s.base.counters.tailIndex / tr.blockSize := by
    rw [Nat.le_div_iff_mul_le hSize, Nat.sub_mul, Nat.one_mul]
    omega
  have hNumber : s.base.counters.tailIndex / tr.blockSize = g.blocks.length - 1 := by omega
  have hIn := h.ring.start_lt (List.ne_nil_of_length_pos hSome)
  exact ⟨t, hTail, hNumber ▸ hNewest, by omega⟩

/-- The block ahead of the tail. -/
theorem Produces.ahead (h : Produces tr s g) (hNot : Enqueue.resetting s.enqueueing = 0) {n : B}
    (hNext : s.nextBlock = some n) : g.blocks[g.start]? = some n := by
  obtain ⟨t, hTail, hn⟩ := Option.bind_eq_some_iff.mp hNext
  rw [h.tail, Enqueue.tail, if_pos hNot] at hTail
  obtain ⟨c, hc, hNextOf⟩ := h.ring.next_last hTail
  rw [hc, ← hNextOf]
  exact hn

/-- **The block ahead is taken** when all of its flags have been found set; by
then all of its elements have been moved out. -/
theorem Kept.takeAhead (h : Kept tr s g) {v : τ} {j : Nat}
    (hPc : s.enqueueing = some (.checking v j)) {n : B} (hAhead : g.blocks[g.start]? = some n)
    (hFlags : ∀ k, k < tr.blockSize → (s.block n).emptyFlags k = true) :
    Kept tr { s with tailBlock := some n, enqueueing := some (.reusing v 0) } g := by
  have hSize := Traits.blockSize_pos tr
  have hStored := h.stored
  have hWritten := h.produces.written
  have hShown := h.produces.shown
  have hFilling := h.produces.filling
  rw [hPc] at hStored hWritten hShown hFilling
  have hEmptied : ∀ i, i / tr.blockSize = g.start → g.emptied i = true := by
    intro i hi
    have hFlag := hStored.flag i n (le_of_eq hi.symm) (hi ▸ hAhead)
    rw [← hFlag]
    exact hFlags _ (by omega)
  refine ⟨h.base, hStored.leave hEmptied, ?_, ?_⟩
  · exact
      { ring := h.produces.ring
        tail := hAhead.symm
        owned := h.produces.owned
        used := h.produces.used
        room := h.produces.room
        listed := h.produces.listed
        front := h.produces.front
        written := hWritten
        shown := hShown
        filling := hFilling
        seen := by
          intro c hc
          obtain rfl : c = n := Option.some.inj (hc.symm.trans hAhead)
          refine ⟨hSize, fun k hk => absurd hk (Nat.not_lt_zero k), ?_⟩
          intro o ho
          -- an index of the block
          have hDiv : (g.start * tr.blockSize + o) / tr.blockSize = g.start := by
            rw [Nat.mul_comm, Nat.mul_add_div hSize, Nat.div_eq_of_lt ho, Nat.add_zero]
          have hElement := hStored.element _ c (le_of_eq hDiv.symm) (by rw [hDiv]; exact hAhead)
          rwa [hStored.moved_of_emptied _ (hEmptied _ hDiv), Nat.mul_comm, Nat.mul_add_mod,
            Nat.mod_eq_of_lt ho] at hElement
        space := by
          intro v' hEq
          cases hEq
        indexed := h.produces.indexed
        null := h.produces.null }
  · exact h.undisturbed rfl rfl rfl rfl rfl

theorem Kept.check (h : Kept tr s g) {v : τ} {j : Nat}
    (hPc : s.enqueueing = some (.checking v j)) {n : B} (hNext : s.nextBlock = some n)
    {t : ExplicitProducer T B τ} {pc : Enqueue τ}
    (hStep : (if (s.block n).emptyFlags j then
        if j + 1 = tr.blockSize then ({ s with tailBlock := some n }, .reusing v 0)
        else (s, .checking v (j + 1))
      else (s, .measuring v)) = (t, pc)) :
    Kept tr { t with enqueueing := some pc } g := by
  have hAhead := h.produces.ahead (by rw [hPc]; rfl) hNext
  have hFilling := h.produces.filling
  have hSeen := h.produces.seen n hAhead
  rw [hPc] at hFilling hSeen
  obtain ⟨hLt, hBefore⟩ := hSeen
  split at hStep
  · next hFlag =>
    -- the next flag is set, too
    have hFlags : ∀ k, k < j + 1 → (s.block n).emptyFlags k = true := by
      intro k hk
      rcases Nat.lt_succ_iff_lt_or_eq.mp hk with hOld | hNew
      · exact hBefore k hOld
      · exact hNew ▸ hFlag
    split at hStep
    · next hLast =>
      cases hStep
      exact h.takeAhead hPc hAhead fun k hk => hFlags k (by omega)
    · next hMore =>
      cases hStep
      refine h.turn (some (.checking v (j + 1))) (hPc ▸ ⟨rfl, rfl, rfl, rfl⟩) hFilling ?_ ?_
      · intro c hc
        obtain rfl : c = n := Option.some.inj (hc.symm.trans hAhead)
        exact ⟨by omega, hFlags⟩
      · intro v' hEq
        cases hEq
  · cases hStep
    refine h.turn (some (.measuring v)) (hPc ▸ ⟨rfl, rfl, rfl, rfl⟩) hFilling.2
      (fun _ _ => trivial) ?_
    intro v' hEq
    cases hEq

theorem Kept.measure (h : Kept tr s g) {v : τ} (hPc : s.enqueueing = some (.measuring v))
    (b : Bool) :
    Kept tr { s with enqueueing := some (if b then .indexing v else .returning false) } g := by
  have hFilling := h.produces.filling
  rw [hPc] at hFilling
  cases b with
  | true =>
    refine h.turn (some (.indexing v)) (hPc ▸ ⟨rfl, rfl, rfl, rfl⟩) hFilling
      (fun _ _ => trivial) ?_
    intro v' hEq
    cases hEq
  | false =>
    exact h.giveUp (hPc ▸ ⟨rfl, rfl, rfl, rfl⟩) hFilling

/-- All elements are counted by the tail while none is being constructed. -/
theorem Kept.items_le (h : Kept tr s g) (hPending : Enqueue.pending s.enqueueing = [])
    (hTail : s.base.counters.tailIndex = g.blocks.length * tr.blockSize) :
    (s.base.items ++ Enqueue.pending s.enqueueing).length ≤ g.blocks.length * tr.blockSize ∧
      s.base.counters.headIndex ≤ (s.base.items ++ Enqueue.pending s.enqueueing).length := by
  have hItems := h.tail_eq
  have hHead := h.head_le
  rw [hPending, List.append_nil]
  exact ⟨by omega, hHead⟩

/-- **A new block index** has the entries of the blocks in use, from its first
place on. -/
theorem Kept.newBlockIndex (h : Kept tr s g) (hWritten : Enqueue.unwritten s.enqueueing = 0)
    (hShown : Enqueue.unshown s.enqueueing = 0)
    (hFits : ((2 * s.header.size * tr.blockSize : Nat) : Int) ∣ indexRange) :
    Kept tr s.newBlockIndex
      { g with
        place := Function.update g.place (s.blockIndex + 1) (-g.start)
        written := Function.update g.written (s.blockIndex + 1) g.blocks.length
        shown := Function.update g.shown (s.blockIndex + 1) g.blocks.length } := by
  have hListed := h.produces.listed s.blockIndex le_rfl
  have hPos : 0 < s.header.size := hListed.size_pos
  have hUsed := h.produces.used
  have hRoom : s.slotsUsed ≤ s.header.size := h.produces.room
  have hAllWritten := h.produces.written
  have hAllShown := h.produces.shown
  have hFront : s.front = slot s.header.size (g.place s.blockIndex) (g.start + s.slotsUsed) := by
    rw [show g.start + s.slotsUsed = g.shown s.blockIndex by omega]
    exact h.produces.front
  have hCopied : (if s.slotsUsed = 0 then [] else copyRound s.header.entries s.header.size s.front
      s.header.size ((s.front - s.slotsUsed) % s.header.size)) =
        (List.range s.slotsUsed).map fun j =>
          s.header.entries (slot s.header.size (g.place s.blockIndex) (g.start + j)) := by
    split
    · next hZero => rw [hZero, List.range_zero, List.map_nil]
    · next hSome =>
      obtain ⟨k, hk⟩ : ∃ k, s.slotsUsed = k + 1 := Nat.exists_eq_add_one_of_ne_zero hSome
      rw [hFront, hk, slot_sub _ _ (by omega), Nat.add_sub_cancel]
      exact copyRound_window _ _ _ _ k _ (by omega) (by omega)
  have hNew : s.newBlockIndex =
      { s with
        blockIndex := s.blockIndex + 1
        headers := Function.update s.headers (s.blockIndex + 1)
          { size := 2 * s.header.size
            front := (s.slotsUsed : Int) - 1
            entries := fun i => if i < 0 then none else
              ((List.range s.slotsUsed).map fun j => s.header.entries
                (slot s.header.size (g.place s.blockIndex) (g.start + j)))[i.toNat]?.join }
        front := s.slotsUsed } := by
    unfold ExplicitProducer.newBlockIndex
    rw [hCopied]
    simp only [List.length_map, List.length_range]
  have hSlotEnd : slot (2 * s.header.size) (-(g.start : Int)) g.blocks.length = s.slotsUsed := by
    rw [show g.blocks.length = g.start + s.slotsUsed by omega]
    exact slot_start g.start (by omega)
  rw [hNew]
  refine ⟨h.base, h.stored, ?_, ?_⟩
  · refine
      { ring := h.produces.ring
        tail := h.produces.tail
        owned := h.produces.owned
        used := h.produces.used
        room := ?_
        listed := ?_
        front := ?_
        written := ?_
        shown := ?_
        filling := h.produces.filling
        seen := h.produces.seen
        space := ?_
        indexed := fun hZero => absurd hZero (Nat.succ_ne_zero _)
        null := ?_ }
    · dsimp only
      rw [Function.update_self]
      show s.slotsUsed ≤ 2 * s.header.size
      omega
    · intro hd hLe
      dsimp only at hLe ⊢
      by_cases hEq : hd = s.blockIndex + 1
      · subst hEq
        simp only [Function.update_self]
        refine ⟨hFits, ?_, ?_, le_rfl, le_rfl⟩
        · intro m hm
          have hIn := h.produces.ring.start_lt (List.ne_nil_of_length_pos (by omega))
          have hSlot : slot (2 * s.header.size) (-(g.start : Int)) (g.start + (s.slotsUsed - 1)) =
              (s.slotsUsed - 1 : Nat) := slot_start g.start (by omega)
          rw [show m = g.start + (s.slotsUsed - 1) by omega, hSlot]
          dsimp only
          omega
        · intro q hLow hHigh
          obtain ⟨j, rfl⟩ := Nat.exists_eq_add_of_le hLow
          have hj : slot (2 * s.header.size) (-(g.start : Int)) (g.start + j) = j :=
            slot_start g.start (by omega)
          have hOld := hListed.window (g.start + j) hLow (by omega)
          dsimp only at hOld ⊢
          rw [hj, if_neg (by omega), Int.toNat_natCast, List.getElem?_map,
            List.getElem?_range (by omega), Option.map_some, Option.join_some]
          exact hOld
      · simp only [Function.update_of_ne hEq]
        exact h.produces.listed hd (by omega)
    · dsimp only
      simp only [Function.update_self]
      exact hSlotEnd.symm
    · dsimp only
      rw [Function.update_self, hWritten, Nat.add_zero]
    · dsimp only
      rw [Function.update_self, hShown, Nat.add_zero]
    · intro v hPc
      dsimp only
      rw [Function.update_self]
      refine ⟨Nat.succ_ne_zero _, ?_⟩
      show s.slotsUsed < 2 * s.header.size
      omega
    · dsimp only
      rw [Function.update_of_ne (Nat.succ_ne_zero _).symm]
      exact h.produces.null
  · refine h.produce [] [] rfl (List.append_nil _).symm rfl rfl rfl (Nat.le_succ _)
      (List.append_nil _).symm rfl rfl ?_
    intro hd hLe
    have hNe : hd ≠ s.blockIndex + 1 := by omega
    simp only [Function.update_of_ne hNe]
    exact ⟨trivial, trivial, le_rfl, le_rfl⟩

/-- The constructor gets its block index, or does without. -/
theorem Kept.init (tr : Traits) (allocated : Bool) (T : Nat) (B τ : Type) :
    ∃ g, Kept tr (ExplicitProducer.init tr allocated T B τ) g := by
  cases allocated with
  | false => exact ⟨_, Kept.bare tr T B τ⟩
  | true => exact ⟨_, (Kept.bare tr T B τ).newBlockIndex rfl rfl tr.fits⟩

/-- `enqueue` gets a new block index. -/
theorem Kept.grow (h : Kept tr s g) {v : τ} (hPc : s.enqueueing = some (.indexing v))
    (hFits : ((2 * s.header.size * tr.blockSize : Nat) : Int) ∣ indexRange) :
    ∃ g', Kept tr { s.newBlockIndex with enqueueing := some (.requisitioning v) } g' := by
  have hPos : 0 < s.header.size := (h.produces.listed s.blockIndex le_rfl).size_pos
  have hRoom : s.slotsUsed ≤ s.header.size := h.produces.room
  have hFilling := h.produces.filling
  rw [hPc] at hFilling
  have hNew := h.newBlockIndex (by rw [hPc]; rfl) (by rw [hPc]; rfl) hFits
  refine ⟨_, hNew.turn (some (.requisitioning v)) ?_ hFilling (fun _ _ => trivial) ?_⟩
  · show _ = Enqueue.pending s.enqueueing ∧ _ = Enqueue.unwritten s.enqueueing ∧
      _ = Enqueue.unshown s.enqueueing ∧ _ = Enqueue.resetting s.enqueueing
    rw [hPc]
    exact ⟨rfl, rfl, rfl, rfl⟩
  · intro v' _
    refine ⟨Nat.succ_ne_zero _, ?_⟩
    show s.slotsUsed < (Function.update s.headers (s.blockIndex + 1) _ (s.blockIndex + 1)).size
    rw [Function.update_self]
    show s.slotsUsed < 2 * s.header.size
    omega

/-- The newest block gets its entry. No consumer needs what is written over. -/
theorem Kept.list (h : Kept tr s g) {v : τ} (hPc : s.enqueueing = some (.listing v)) {t : B}
    (hTail : s.tailBlock = some t) :
    Kept tr { s.writeHeader { s.header with
          entries := Function.update s.header.entries s.front
            (some ⟨s.base.counters.tailIndex, t⟩) } with
        enqueueing := some (.fronting v) }
      { g with written := Function.update g.written s.blockIndex g.blocks.length } := by
  have hListed := h.produces.listed s.blockIndex le_rfl
  have hUsed := h.produces.used
  have hRoom := h.produces.room
  have hFilling := h.produces.filling
  have hShown := h.produces.shown
  have hWritten := h.produces.written
  have hNow := h.produces.tail
  rw [hPc] at hFilling hShown hWritten hNow
  replace hFilling : s.base.counters.tailIndex + tr.blockSize = g.blocks.length * tr.blockSize :=
    hFilling
  replace hShown : g.shown s.blockIndex + 1 = g.blocks.length := hShown
  replace hWritten : g.written s.blockIndex + 1 = g.blocks.length := hWritten
  obtain ⟨t', hTail', hNewest⟩ := h.produces.newest (by rw [hPc]; rfl) (by omega)
  obtain rfl : t = t' := Option.some.inj (hTail.symm.trans hTail')
  have hLast : g.blocks[g.written s.blockIndex]? = some t := by
    rw [show g.written s.blockIndex = g.blocks.length - 1 by omega, hNewest]
  have hIndexed : s.blockIndex ≠ 0 := by
    intro hZero
    rw [h.produces.indexed hZero] at hLast
    cases hLast
  have hStart : g.start < g.blocks.length :=
    h.produces.ring.start_lt (List.ne_nil_of_mem (List.mem_of_getElem? hLast))
  have hBase : s.base.counters.tailIndex = g.written s.blockIndex * tr.blockSize := by
    rw [← hWritten, Nat.add_mul, Nat.one_mul] at hFilling
    omega
  have hWindow := hListed.window.push (by omega) (by omega)
  refine ⟨h.base, ?_, ?_, ?_⟩
  · have hStored := h.stored
    rw [hPc] at hStored
    exact hStored
  · refine
      { ring := h.produces.ring
        tail := hNow
        owned := h.produces.owned
        used := h.produces.used
        room := ?_
        listed := ?_
        front := ?_
        written := ?_
        shown := hShown
        filling := hFilling
        seen := fun _ _ => trivial
        space := ?_
        indexed := h.produces.indexed
        null := (Function.update_of_ne hIndexed.symm ..).trans h.produces.null }
    · dsimp only [writeHeader]
      rw [Function.update_self]
      exact hRoom
    · intro hd hLe
      dsimp only [writeHeader] at hLe ⊢
      by_cases hEq : hd = s.blockIndex
      · subst hEq
        simp only [Function.update_self]
        refine ⟨hListed.fits, hListed.front, ?_, by omega, le_rfl⟩
        rw [hLast, Option.map_some, ← hBase, hWritten] at hWindow
        rw [h.produces.front, show g.shown s.blockIndex = g.written s.blockIndex by omega]
        exact hWindow
      · simp only [Function.update_of_ne hEq]
        exact h.produces.listed hd hLe
    · dsimp only [writeHeader]
      rw [Function.update_self]
      exact h.produces.front
    · dsimp only [writeHeader]
      rw [Function.update_self]
      rfl
    · intro v' hEq
      cases hEq
  · refine h.produce [] [] rfl (List.append_nil _).symm rfl rfl rfl le_rfl
      (List.append_nil _).symm rfl rfl ?_
    intro hd hLe
    dsimp only [writeHeader]
    by_cases hEq : hd = s.blockIndex
    · subst hEq
      simp only [Function.update_self]
      exact ⟨rfl, trivial, by omega, le_rfl⟩
    · simp only [Function.update_of_ne hEq]
      exact ⟨trivial, trivial, le_rfl, le_rfl⟩

/-- `front` goes on to it. -/
theorem Kept.show (h : Kept tr s g) {v : τ} (hPc : s.enqueueing = some (.fronting v)) :
    Kept tr { s.writeHeader { s.header with front := s.front } with
        front := (s.front + 1) % s.header.size
        enqueueing := some (.constructing v) }
      { g with shown := Function.update g.shown s.blockIndex g.blocks.length } := by
  have hListed := h.produces.listed s.blockIndex le_rfl
  have hRoom := h.produces.room
  have hFilling := h.produces.filling
  have hShown := h.produces.shown
  have hWritten := h.produces.written
  have hNow := h.produces.tail
  have hPos := Traits.blockSize_pos tr
  rw [hPc] at hFilling hShown hWritten hNow
  replace hFilling : s.base.counters.tailIndex + tr.blockSize = g.blocks.length * tr.blockSize :=
    hFilling
  replace hShown : g.shown s.blockIndex + 1 = g.blocks.length := hShown
  replace hWritten : g.written s.blockIndex = g.blocks.length := hWritten
  refine ⟨h.base, ?_, ?_, ?_⟩
  · have hStored := h.stored
    rw [hPc] at hStored
    exact hStored
  · refine
      { ring := h.produces.ring
        tail := hNow
        owned := h.produces.owned
        used := h.produces.used
        room := ?_
        listed := ?_
        front := ?_
        written := hWritten
        shown := ?_
        filling := ⟨by dsimp only [writeHeader]; omega, by dsimp only [writeHeader]; omega⟩
        seen := fun _ _ => trivial
        space := ?_
        indexed := h.produces.indexed
        null := h.produces.null }
    · dsimp only [writeHeader]
      rw [Function.update_self]
      exact hRoom
    · intro hd hLe
      dsimp only [writeHeader] at hLe ⊢
      by_cases hEq : hd = s.blockIndex
      · subst hEq
        simp only [Function.update_self]
        refine ⟨hListed.fits, ?_, hListed.window, by omega, by omega⟩
        intro m hm
        rw [show m = g.shown s.blockIndex by omega]
        exact h.produces.front
      · simp only [Function.update_of_ne hEq]
        exact h.produces.listed hd hLe
    · dsimp only [writeHeader]
      simp only [Function.update_self]
      rw [h.produces.front]
      show (slot s.header.size _ _ + 1) % s.header.size = slot s.header.size _ _
      rw [slot_succ, hShown]
    · dsimp only [writeHeader]
      rw [Function.update_self]
      rfl
    · intro v' hEq
      cases hEq
  · refine h.produce [] [] rfl (List.append_nil _).symm rfl rfl rfl le_rfl
      (List.append_nil _).symm rfl rfl ?_
    intro hd hLe
    dsimp only [writeHeader]
    by_cases hEq : hd = s.blockIndex
    · subst hEq
      simp only [Function.update_self]
      exact ⟨rfl, trivial, le_rfl, by omega⟩
    · simp only [Function.update_of_ne hEq]
      exact ⟨trivial, trivial, le_rfl, le_rfl⟩

/-- The element is counted by the tail. -/
theorem Kept.store (h : Kept tr s g) {v : τ} (hPc : s.enqueueing = some (.storing v))
    {base : SubQueue T τ} (hStep : s.base.step (.enqueue [v]) = some base) :
    Kept tr { s with base := base, enqueueing := some (.returning true) } g := by
  have hReachable := h.reachable rfl hStep
  have hFilling := h.produces.filling
  have hWritten := h.produces.written
  have hShown := h.produces.shown
  have hStored := h.stored
  have hNow := h.produces.tail
  rw [hPc] at hFilling hWritten hShown hStored hNow
  obtain ⟨hLt, hLe⟩ := hFilling
  cases hStep
  refine ⟨hReachable, ?_, ?_, ?_⟩
  · show Stored tr s.block g.blocks g.start (s.base.items ++ [v] ++ []) _ _ _
    rw [List.append_nil]
    exact hStored
  · exact
      { ring := h.produces.ring
        tail := hNow
        owned := h.produces.owned
        used := h.produces.used
        room := h.produces.room
        listed := h.produces.listed
        front := h.produces.front
        written := hWritten
        shown := hShown
        filling := by
          show s.base.counters.tailIndex + 1 ≤ _ ∧ _ < s.base.counters.tailIndex + 1 + _
          omega
        seen := fun _ _ => trivial
        space := by
          intro v' hEq
          cases hEq
        indexed := h.produces.indexed
        null := h.produces.null }
  · exact h.produce [] [v] rfl rfl rfl rfl rfl le_rfl (List.append_nil _).symm rfl rfl
      fun _ _ => ⟨rfl, rfl, le_rfl, le_rfl⟩

variable [DecidableEq B]

/-- The links stay when what is written to a block has its old one. -/
theorem Linked.writeBlock {l : List B} {k : Nat} (h : Linked (fun b => (s.block b).next) l k)
    {t : B} {x : Block B τ} (hNext : x.next = (s.block t).next) :
    Linked (fun b => ((s.writeBlock t x).block b).next) l k := by
  have hLinks : (fun b => ((s.writeBlock t x).block b).next) = fun b => (s.block b).next :=
    funext fun b => update_part Block.next s.block t b hNext
  rw [hLinks]
  exact h

omit [DecidableEq B] in
/-- The blocks behind the oldest are others. -/
theorem Produces.ne_oldest (h : Produces tr s g) {t c : B} (hOldest : g.blocks[g.start]? = some t)
    {q : Nat} (hq : g.start + 1 ≤ q) (hc : g.blocks[q]? = some c) : c ≠ t := by
  rintro rfl
  have hEq := h.ring.number_eq (Nat.le_of_succ_le hq) le_rfl hc hOldest
  omega

/-- The flags are clear up to the one that is reset. -/
theorem update_flag {flags : Nat → Bool} {j : Nat} (h : ∀ k, k < j → flags k = false) {k : Nat}
    (hk : k ≤ j) : Function.update flags j false k = false := by
  rw [Function.update_apply]
  split
  · rfl
  · exact h k (by omega)

/-- A flag of the oldest block is reset. -/
theorem Kept.reset (h : Kept tr s g) {v : τ} {j : Nat}
    (hPc : s.enqueueing = some (.reusing v j)) {t : B} (hTail : s.tailBlock = some t)
    (hMore : j + 1 ≠ tr.blockSize) :
    Kept tr { s.writeBlock t { s.block t with
          emptyFlags := Function.update (s.block t).emptyFlags j false } with
        enqueueing := some (.reusing v (j + 1)) } g := by
  have hOldest : g.blocks[g.start]? = some t := (h.produces.oldest hPc).symm.trans hTail
  have hSeen := h.produces.seen t hOldest
  have hStored := h.stored
  have hWritten := h.produces.written
  have hShown := h.produces.shown
  have hFilling := h.produces.filling
  rw [hPc] at hSeen hStored hWritten hShown hFilling
  obtain ⟨hLt, hFlags, hElements⟩ := hSeen
  refine ⟨h.base, hStored.congr ?_, ?_, ?_⟩
  · intro q c hq hc
    exact Function.update_of_ne (h.produces.ne_oldest hOldest hq hc) ..
  · exact
      { ring := h.produces.ring.writeBlock rfl
        tail := hTail.trans hOldest.symm
        owned := h.produces.owned
        used := h.produces.used
        room := h.produces.room
        listed := h.produces.listed
        front := h.produces.front
        written := hWritten
        shown := hShown
        filling := hFilling
        seen := by
          intro c hc
          obtain rfl : c = t := Option.some.inj (hc.symm.trans hOldest)
          dsimp only [writeBlock]
          rw [Function.update_self]
          exact ⟨by omega, fun k hk => update_flag hFlags (by omega), hElements⟩
        space := by
          intro v' hEq
          cases hEq
        indexed := h.produces.indexed
        null := h.produces.null }
  · exact h.undisturbed rfl rfl rfl rfl rfl

/-- **A block is reused**: with the last of its flags reset, the oldest block is
the newest. -/
theorem Kept.reuse (h : Kept tr s g) {v : τ} {j : Nat}
    (hPc : s.enqueueing = some (.reusing v j)) {t : B} (hTail : s.tailBlock = some t)
    (hLast : j + 1 = tr.blockSize) :
    Kept tr { s.writeBlock t { s.block t with
          emptyFlags := Function.update (s.block t).emptyFlags j false } with
        enqueueing := some (.listing v) }
      { g with blocks := g.blocks ++ [t], start := g.start + 1 } := by
  have hOldest : g.blocks[g.start]? = some t := (h.produces.oldest hPc).symm.trans hTail
  have hPending : Enqueue.pending s.enqueueing = [] := by rw [hPc]; rfl
  have hSeen := h.produces.seen t hOldest
  have hStored := h.stored
  have hFilling := h.produces.filling
  have hWritten := h.produces.written
  have hShown := h.produces.shown
  obtain ⟨hItems, hHead⟩ := h.items_le hPending (by rw [hPc] at hFilling; exact hFilling.2)
  rw [hPending] at hItems hHead
  rw [hPc] at hSeen hStored hFilling hWritten hShown
  obtain ⟨hLt, hFlags, hElements⟩ := hSeen
  refine ⟨h.base, hStored.append _ t ?_ ?_ hItems hHead, ?_, ?_⟩
  · intro q c hq hc
    dsimp only [writeBlock]
    rw [Function.update_of_ne (h.produces.ne_oldest hOldest hq hc)]
    exact ⟨rfl, rfl⟩
  · intro o ho
    dsimp only [writeBlock]
    rw [Function.update_self]
    exact ⟨hElements o ho, update_flag hFlags (by omega)⟩
  · exact
      { ring := (h.produces.ring.reuse hOldest).writeBlock rfl
        tail := by
          dsimp only [writeBlock]
          rw [hTail]
          exact (List.getLast?_concat).symm
        owned := by
          intro b hb
          rcases List.mem_append.mp hb with hOld | hNew
          · exact h.produces.owned b hOld
          · rw [List.mem_singleton.mp hNew]
            exact h.produces.owned t (List.mem_of_getElem? hOldest)
        used := by
          have hUsed := h.produces.used
          show s.slotsUsed + (g.start + 1) = (g.blocks ++ [t]).length
          rw [List.length_append, List.length_singleton]
          omega
        room := h.produces.room
        listed := fun hd hLe => (h.produces.listed hd hLe).mono (Nat.le_succ _) [t]
        front := h.produces.front
        written := by
          show g.written s.blockIndex + 1 = (g.blocks ++ [t]).length
          rw [List.length_append]
          exact congrArg (· + 1) hWritten
        shown := by
          show g.shown s.blockIndex + 1 = (g.blocks ++ [t]).length
          rw [List.length_append]
          exact congrArg (· + 1) hShown
        filling := by
          show s.base.counters.tailIndex + tr.blockSize = (g.blocks ++ [t]).length * tr.blockSize
          rw [List.length_append, List.length_singleton, Nat.add_mul, Nat.one_mul, hFilling.2]
        seen := fun _ _ => trivial
        space := by
          intro v' hEq
          cases hEq
        indexed := by
          intro hZero
          rw [h.produces.indexed hZero] at hOldest
          cases hOldest
        null := h.produces.null }
  · exact h.produce [t] [] rfl (List.append_nil _).symm rfl rfl rfl le_rfl rfl rfl rfl
      fun _ _ => ⟨rfl, rfl, le_rfl, le_rfl⟩

/-- What the blocks are once `b` is behind the tail. -/
theorem insertBlock_spec (h : Linked (fun b => (s.block b).next) g.blocks g.start)
    (hTailBlock : s.tailBlock = g.blocks.getLast?) {b : B} (hNew : b ∉ g.blocks) :
    ∃ block, s.insertBlock b = { s with block := block, tailBlock := some b } ∧
      Linked (fun c => (block c).next) (g.blocks ++ [b]) g.start ∧
      (∀ c, c ≠ b → (block c).elements = (s.block c).elements ∧
        (block c).emptyFlags = (s.block c).emptyFlags) ∧
      (block b).elements = (fun _ => none) ∧ (block b).emptyFlags = fun _ => false := by
  unfold insertBlock
  cases hTail : s.tailBlock with
  | none =>
    refine ⟨_, rfl, ?_, ?_, ?_, ?_⟩
    · have hFirst := h.first (List.getLast?_eq_none_iff.mp (hTailBlock.symm.trans hTail)) b
      have hLinks : (fun c => (Function.update s.block b
          ⟨some b, fun _ => none, fun _ => false⟩ c).next) =
          Function.update (fun c => (s.block c).next) b (some b) := by
        funext c
        rw [Function.update_apply, Function.update_apply]
        split <;> rfl
      exact hLinks ▸ hFirst
    · intro c hc
      dsimp only [writeBlock]
      rw [Function.update_of_ne hc]
      exact ⟨rfl, rfl⟩
    · dsimp only [writeBlock]
      rw [Function.update_self]
    · dsimp only [writeBlock]
      rw [Function.update_self]
  | some t =>
    have hLast : g.blocks.getLast? = some t := hTailBlock.symm.trans hTail
    have hMem : t ∈ g.blocks := List.mem_of_getLast? hLast
    have hNe : t ≠ b := by
      rintro rfl
      exact hNew hMem
    refine ⟨_, rfl, ?_, ?_, ?_, ?_⟩
    · have hInsert := h.insert hLast hNew
      refine (congrArg (Linked · (g.blocks ++ [b]) g.start) ?_).mp hInsert
      funext c
      dsimp only [writeBlock]
      rw [Function.update_apply, Function.update_apply, Function.update_apply]
      split
      · rfl
      · rw [Function.update_apply]
        split <;> rfl
    · intro c hc
      dsimp only [writeBlock]
      rw [Function.update_apply]
      split
      · next hEq =>
        subst hEq
        rw [Function.update_of_ne hc]
        exact ⟨rfl, rfl⟩
      · rw [Function.update_of_ne hc]
        exact ⟨rfl, rfl⟩
    · dsimp only [writeBlock]
      rw [Function.update_of_ne hNe.symm, Function.update_self]
    · dsimp only [writeBlock]
      rw [Function.update_of_ne hNe.symm, Function.update_self]

/-- A new block comes behind the tail. -/
theorem Kept.insert (h : Kept tr s g) {v : τ} (hPc : s.enqueueing = some (.requisitioning v))
    {b : B} (hNew : b ∉ s.owned) :
    Kept tr { s.insertBlock b with
        slotsUsed := s.slotsUsed + 1
        owned := b :: s.owned
        enqueueing := some (.listing v) }
      { g with blocks := g.blocks ++ [b] } := by
  have hFilling := h.produces.filling
  have hWritten := h.produces.written
  have hShown := h.produces.shown
  obtain ⟨hIndexed, hSpace⟩ := h.produces.space v hPc
  have hPending : Enqueue.pending s.enqueueing = [] := by rw [hPc]; rfl
  have hStored := h.stored
  have hNow := h.produces.tail
  rw [hPc] at hFilling hWritten hShown hStored hNow
  replace hFilling : s.base.counters.tailIndex = g.blocks.length * tr.blockSize := hFilling
  have hNotIn : b ∉ g.blocks := fun hIn => hNew (h.produces.owned b hIn)
  obtain ⟨hItems, hHead⟩ := h.items_le hPending hFilling
  rw [hPending] at hItems hHead
  obtain ⟨block, hBlock, hRing, hOld, hElements, hFlags⟩ :=
    insertBlock_spec h.produces.ring hNow hNotIn
  rw [hBlock]
  refine ⟨h.base, hStored.append block b ?_ ?_ hItems hHead, ?_, ?_⟩
  · intro q c _ hc
    refine hOld c ?_
    rintro rfl
    exact hNotIn (List.mem_of_getElem? hc)
  · intro o _
    rw [hElements, hFlags]
    exact ⟨rfl, rfl⟩
  · exact
      { ring := hRing
        tail := (List.getLast?_concat).symm
        owned := by
          intro c hc
          rcases List.mem_append.mp hc with hIn | hIn
          · exact List.mem_cons_of_mem b (h.produces.owned c hIn)
          · rw [List.mem_singleton.mp hIn]
            exact List.mem_cons_self
        used := by
          have hUsed := h.produces.used
          show s.slotsUsed + 1 + g.start = (g.blocks ++ [b]).length
          rw [List.length_append, List.length_singleton]
          omega
        room := hSpace
        listed := fun hd hLe => (h.produces.listed hd hLe).mono le_rfl [b]
        front := h.produces.front
        written := by
          show g.written s.blockIndex + 1 = (g.blocks ++ [b]).length
          rw [List.length_append]
          exact congrArg (· + 1) hWritten
        shown := by
          show g.shown s.blockIndex + 1 = (g.blocks ++ [b]).length
          rw [List.length_append]
          exact congrArg (· + 1) hShown
        filling := by
          show s.base.counters.tailIndex + tr.blockSize = (g.blocks ++ [b]).length * tr.blockSize
          rw [List.length_append, List.length_singleton, Nat.add_mul, Nat.one_mul, hFilling]
        seen := fun _ _ => trivial
        space := by
          intro v' hEq
          cases hEq
        indexed := fun hZero => absurd hZero hIndexed
        null := h.produces.null }
  · exact h.produce [b] [] rfl (List.append_nil _).symm rfl rfl rfl le_rfl rfl rfl rfl
      fun _ _ => ⟨rfl, rfl, le_rfl, le_rfl⟩

/-- **An element is constructed** in raw memory. -/
theorem Kept.construct (h : Kept tr s g) {v : τ} (hPc : s.enqueueing = some (.constructing v))
    {t : B} (hTail : s.tailBlock = some t) :
    Kept tr { s.writeBlock t { s.block t with
          elements := Function.update (s.block t).elements
            (s.base.counters.tailIndex % tr.blockSize) (some v) } with
        enqueueing := some (.storing v) } g := by
  have hFilling := h.produces.filling
  have hWritten := h.produces.written
  have hShown := h.produces.shown
  have hStored := h.stored
  have hNow := h.produces.tail
  rw [hPc] at hFilling hWritten hShown hStored hNow
  obtain ⟨hLt, hLe⟩ := hFilling
  replace hStored : Stored tr s.block g.blocks g.start (s.base.items ++ [])
    s.base.counters.headIndex g.moved g.emptied := hStored
  rw [List.append_nil] at hStored
  have hItems := h.tail_eq
  obtain ⟨t', hTail', hBlock, hStart⟩ := h.produces.tail_number hPc
  obtain rfl : t = t' := Option.some.inj (hTail.symm.trans hTail')
  rw [hItems] at hBlock hStart
  have hNew := hStored.construct h.produces.ring le_rfl hStart hBlock h.head_le v
  rw [← hItems] at hNew
  refine ⟨h.base, hNew, ?_, ?_⟩
  · exact
      { ring := h.produces.ring.writeBlock rfl
        tail := hNow
        owned := h.produces.owned
        used := h.produces.used
        room := h.produces.room
        listed := h.produces.listed
        front := h.produces.front
        written := hWritten
        shown := hShown
        filling := ⟨hLt, hLe⟩
        seen := fun _ _ => trivial
        space := by
          intro v' hEq
          cases hEq
        indexed := h.produces.indexed
        null := h.produces.null }
  · exact h.undisturbed rfl rfl rfl rfl rfl

-- ---------------------------------------------------------------------------
-- Every run
-- ---------------------------------------------------------------------------

theorem Kept.produceStep (h : Kept tr s g) {pc pc' : Enqueue τ} (hPc : s.enqueueing = some pc)
    {t : ExplicitProducer T B τ} (hStep : stepEnqueue tr s pc = some (t, pc')) :
    ∃ g', Kept tr { t with enqueueing := some pc' } g' := by
  cases pc with
  | checking v j =>
    obtain ⟨n, hNext, hEq⟩ := Option.map_eq_some_iff.mp hStep
    exact ⟨g, h.check hPc hNext hEq⟩
  | reusing v j =>
    obtain ⟨n, hTail, hEq⟩ := Option.map_eq_some_iff.mp hStep
    cases hEq
    split
    · next hLast => exact ⟨_, h.reuse hPc hTail hLast⟩
    · next hMore => exact ⟨g, h.reset hPc hTail hMore⟩
  | measuring v =>
    cases hStep
    exact ⟨g, h.measure hPc _⟩
  | indexing v =>
    simp only [stepEnqueue] at hStep
    split at hStep
    · cases hStep
    · next hNotFull =>
      cases hStep
      obtain ⟨hIndexed, hNotFull⟩ := not_or.mp hNotFull
      have hRoom := h.produces.room
      have hFilling := h.produces.filling
      rw [hPc] at hFilling
      refine ⟨g, h.turn (some (.requisitioning v)) (hPc ▸ ⟨rfl, rfl, rfl, rfl⟩) hFilling
        (fun _ _ => trivial) ?_⟩
      intro v' _
      exact ⟨hIndexed, lt_of_le_of_ne hRoom hNotFull⟩
  | requisitioning v => cases hStep
  | listing v =>
    simp only [stepEnqueue] at hStep
    split at hStep
    · cases hStep
    · obtain ⟨n, hTail, hEq⟩ := Option.map_eq_some_iff.mp hStep
      cases hEq
      exact ⟨_, h.list hPc hTail⟩
  | fronting v =>
    simp only [stepEnqueue] at hStep
    split at hStep
    · cases hStep
    · cases hStep
      exact ⟨_, h.show hPc⟩
  | constructing v =>
    obtain ⟨n, hTail, hEq⟩ := Option.map_eq_some_iff.mp hStep
    cases hEq
    exact ⟨g, h.construct hPc hTail⟩
  | storing v =>
    cases hStep
    exact ⟨g, h.store hPc rfl⟩
  | returning ok => cases hStep

theorem Kept.step (h : Kept tr s g) {l : Label T B τ}
    (hStep : (nearSystem tr allocated T B τ).step s l = some s') : ∃ g', Kept tr s' g' := by
  obtain ⟨hNear, hMove⟩ := step_cases hStep
  have hFilling := h.produces.filling
  cases hMove with
  | enqueue v hIdle => exact ⟨g, h.start hIdle v⟩
  | produce pc pc' t hPc hAccess => exact h.produceStep hPc hAccess
  | grow v hPc hFull hFits => exact h.grow hPc hFits
  | refuse v hPc | deny v hPc =>
    rw [hPc] at hFilling
    exact ⟨g, h.giveUp (hPc ▸ ⟨rfl, rfl, rfl, rfl⟩) hFilling⟩
  | insert v b hPc hNew => exact ⟨_, h.insert hPc hNew⟩
  | enqueued ok hPc =>
    rw [hPc] at hFilling
    refine ⟨g, h.turn none (hPc ▸ ⟨rfl, rfl, rfl, rfl⟩) hFilling (fun _ _ => trivial) ?_⟩
    intro v hEq
    cases hEq
  | call i max base hMax hBase => exact ⟨g, h.call hMax hBase⟩
  | claim i base hNot hBase => exact ⟨g, h.baseStep hNear hBase hNot⟩
  | step i max index actualCount t r hCall hAccess =>
    have hMore : ∀ got, s.dequeueing i ≠ some (.done got) := by
      intro got hDone
      rw [hDone] at hAccess
      cases hAccess
    obtain ⟨t', r', g', hAccess', hKept⟩ := h.goes hCall hMore
    rw [hAccess] at hAccess'
    cases hAccess'
    exact ⟨g', hKept⟩
  | ret i max index actualCount got base hCall hDone hBase =>
    have hGot := (h.reads hCall hDone).fits
    exact ⟨g, h.ret hCall (congrArg some hGot.symm) hBase⟩
  | empty i max base hCall hBase =>
    have hNone := h.consumes.idle i fun max' index actualCount hClaimed => by
      rw [hCall] at hClaimed
      cases hClaimed
    have hRet := h.ret hCall rfl hBase
    rw [update_none hNone] at hRet
    exact ⟨g, hRet⟩

theorem kept_of_reachable (h : (nearSystem tr allocated T B τ).Reachable s) : ∃ g, Kept tr s g :=
  System.Reachable.induction (P := fun s => ∃ g, Kept tr s g) (Kept.init tr allocated T B τ)
    (fun _ _ _ _ hKept hStep => hKept.elim fun _ hg => hg.step hStep) h

end ExplicitProducer

end ThreadPool.Model
