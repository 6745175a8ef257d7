import ThreadPool.Model.BlockRing
import ThreadPool.Model.Indices

/-!
# ThreadPool — the storage of a sub-queue

The invariant of a sub-queue with its blocks, and that the consumers keep it.
It speaks of things that are not in the code: the number that a block has, and
which indices have been moved out and are done with (`History`).

* `Dequeue.Fits` — what a call remembers is true: the block index that it has
  loaded may be an old one, but it has the entries of the indices of the call,
  because these are not done with;
* `Produces`, `Consumes`, `Kept` — the two sides and the invariant;
* `Kept.goes` — a call that has its indices can go on;
* `Kept.call`, `Kept.baseStep`, `Kept.ret` — the rest of a call.
-/

namespace ThreadPool.Model

open ThreadPool.Lib

namespace SubQueue

/-- A call of `dequeue_bulk` for one element at least counts and claims one
at least, and fewer than `2 ^ 63`. -/
def Pc.Sized : Pc → Prop
  | .entered max => 0 < max
  | .tailLoaded max _ => 0 < max
  | .overcommitLoaded max _ _ => 0 < max
  | .counting desiredCount _ => 0 < desiredCount
  | .counted desiredCount _ _ => 0 < desiredCount
  | .correcting _ actualCount => (actualCount : Int) < indexHalf
  | .claiming actualCount => 0 < actualCount ∧ (actualCount : Int) < indexHalf
  | .claimed _ actualCount => 0 < actualCount ∧ (actualCount : Int) < indexHalf
  | .nothing => True

theorem distance_lt_half {a b : Int} (h : circularLessThan 0 (distance a b) = true) :
    0 < distance a b ∧ (distance a b : Int) < indexHalf := by
  unfold circularLessThan at h
  rw [decide_eq_true_iff] at h
  have hRange : (distance a b : Int) < indexRange := by
    unfold distance indexRange
    omega
  unfold indexHalf indexRange at *
  omega

/-- What an access of a call to the counters can do. -/
theorem stepCall_sized {c c' : Counters} {pc pc' : Pc} (hSized : pc.Sized)
    (h : stepCall c pc = some (c', pc')) : pc'.Sized := by
  cases pc with
  | entered max => cases h; exact hSized
  | tailLoaded max tail => cases h; exact hSized
  | overcommitLoaded max tail overcommit =>
    cases h
    split
    · next hSome => exact Nat.lt_min.mpr ⟨(distance_lt_half hSome).1, hSized⟩
    · trivial
  | counting desiredCount overcommit => cases h; exact hSized
  | counted desiredCount overcommit myDequeueCount =>
    cases h
    split
    · next hSome =>
      obtain ⟨hPos, hHalf⟩ := distance_lt_half hSome
      have hMinPos : 0 < min desiredCount
          (distance c.tailIndex ((myDequeueCount : Int) - overcommit)) :=
        Nat.lt_min.mpr ⟨hSized, hPos⟩
      unfold settle
      split
      · show ((min _ _ : Nat) : Int) < indexHalf
        omega
      · exact ⟨hMinPos, by omega⟩
    · exact show ((0 : Nat) : Int) < indexHalf by decide
  | correcting surplus actualCount =>
    cases h
    split
    · trivial
    · next hSome => exact ⟨Nat.pos_of_ne_zero hSome, hSized⟩
  | claiming actualCount => cases h; exact hSized
  | claimed index actualCount => cases h
  | nothing => cases h

/-- The tail is the producer's; the head goes on by what is claimed. -/
theorem stepCall_counters {c c' : Counters} {pc pc' : Pc} (h : stepCall c pc = some (c', pc')) :
    c'.tailIndex = c.tailIndex ∧ c.headIndex ≤ c'.headIndex ∧
      ∀ index actualCount, pc' = .claimed index actualCount → index = c.headIndex := by
  cases pc with
  | claiming actualCount =>
    cases h
    refine ⟨rfl, Nat.le_add_right .., ?_⟩
    intro index k hEq
    cases hEq
    rfl
  | entered | tailLoaded | counting =>
    cases h
    refine ⟨rfl, le_rfl, ?_⟩
    intro index k hEq
    cases hEq
  | overcommitLoaded | correcting =>
    cases h
    refine ⟨rfl, le_rfl, ?_⟩
    intro index k hEq
    split at hEq <;> cases hEq
  | counted desiredCount overcommit myDequeueCount =>
    cases h
    refine ⟨rfl, le_rfl, ?_⟩
    intro index k hEq
    unfold settle at hEq
    split at hEq
    · split at hEq <;> cases hEq
    · cases hEq
  | claimed | nothing => cases h

end SubQueue

namespace ExplicitProducer

variable {T : Nat} {B τ : Type} {tr : Traits}

-- ---------------------------------------------------------------------------
-- What is true of a run
-- ---------------------------------------------------------------------------

/-- What has happened in a run: which block got which number, where the ring
starts, which indices have been moved out and which are done with; and for
each block index the place of number 0, the number of entries it has and the
number of those that `front` has been set for. -/
structure History (B : Type) where
  blocks : List B
  start : Nat
  moved : Nat → Bool
  emptied : Nat → Bool
  place : Nat → Int
  written : Nat → Nat
  shown : Nat → Nat

/-- The element that is constructed and not counted by the tail yet. -/
def Enqueue.pending : Option (Enqueue τ) → List τ
  | some (.storing v) => [v]
  | _ => []

/-- 1 if the newest block is not in the block index yet. -/
def Enqueue.unwritten : Option (Enqueue τ) → Nat
  | some (.listing _) => 1
  | _ => 0

/-- 1 if `front` does not lead to it yet. -/
def Enqueue.unshown : Option (Enqueue τ) → Nat
  | some (.listing _) => 1
  | some (.fronting _) => 1
  | _ => 0

/-- 1 while the oldest block, which is done with, is being reset. -/
def Enqueue.resetting : Option (Enqueue τ) → Nat
  | some (.reusing _ _) => 1
  | _ => 0

/-- The tail block: the newest one, or the oldest while that is being reset. -/
def Enqueue.tail (blocks : List B) (start : Nat) (pc : Option (Enqueue τ)) : Option B :=
  if Enqueue.resetting pc = 0 then blocks.getLast? else blocks[start]?

/-- Where the tail is in the newest of `n` blocks. -/
def Enqueue.Filling (tr : Traits) (tail n : Nat) : Option (Enqueue τ) → Prop
  | some (.checking _ _) => 0 < n ∧ tail = n * tr.blockSize
  | some (.reusing _ _) => 0 < n ∧ tail = n * tr.blockSize
  | some (.measuring _) => tail = n * tr.blockSize
  | some (.indexing _) => tail = n * tr.blockSize
  | some (.requisitioning _) => tail = n * tr.blockSize
  | some (.listing _) => tail + tr.blockSize = n * tr.blockSize
  | some (.fronting _) => tail + tr.blockSize = n * tr.blockSize
  | some (.constructing _) => tail < n * tr.blockSize ∧ n * tr.blockSize ≤ tail + tr.blockSize
  | some (.storing _) => tail < n * tr.blockSize ∧ n * tr.blockSize ≤ tail + tr.blockSize
  | some (.returning _) => tail ≤ n * tr.blockSize ∧ n * tr.blockSize < tail + tr.blockSize
  | none => tail ≤ n * tr.blockSize ∧ n * tr.blockSize < tail + tr.blockSize

/-- The flags of the oldest block that the producer has found set, or has
reset; then the block has no elements. -/
def Enqueue.Seen (tr : Traits) (x : Block B τ) : Option (Enqueue τ) → Prop
  | some (.checking _ i) => i < tr.blockSize ∧ ∀ j, j < i → x.emptyFlags j = true
  | some (.reusing _ i) =>
    i < tr.blockSize ∧ (∀ j, j < i → x.emptyFlags j = false) ∧
      ∀ o, o < tr.blockSize → x.elements o = none
  | _ => True

/-- The indices from `index` on that a call has moved out go up to here. -/
def Dequeue.movedTo (index actualCount : Nat) : Option (Dequeue B τ) → Nat
  | some (.block _ _ i _) => i
  | some (.element _ _ _ _ i _) => i
  | some (.emptying _ _ _ _ i _ _) => i
  | some (.done _) => index + actualCount
  | _ => index

/-- Whether a call is done with one of its indices. -/
def Dequeue.emptied (x : Nat) : Option (Dequeue B τ) → Bool
  | some (.block _ _ i _) => decide (x < i)
  | some (.element _ _ _ first _ _) => decide (x < first)
  -- the flags are in the opposite order
  | some (.emptying _ _ _ first i j _) => decide (x < first ∨ (i ≤ x + j ∧ x < i))
  | some (.done _) => true
  | _ => false

/-- The end of what a call has claimed in the block of `first`. -/
def claimedEnd (tr : Traits) (index actualCount first : Nat) : Nat :=
  min (index + actualCount) ((first / tr.blockSize + 1) * tr.blockSize)

/-- What a call that has claimed `actualCount` indices from `index` on
remembers is true: the block index that it uses has their entries, and it has
what it has moved out. -/
def Dequeue.Fits (tr : Traits) (s : ExplicitProducer T B τ) (g : History B)
    (index actualCount : Nat) : Option (Dequeue B τ) → Prop
  | none => True
  | some (.header h) => h ≤ s.blockIndex ∧ index + actualCount ≤ g.shown h * tr.blockSize
  | some (.front h head) =>
    h ≤ s.blockIndex ∧ ∃ m, head = slot (s.headers h).size (g.place h) m ∧ m < g.written h ∧
      index + actualCount ≤ (m + 1) * tr.blockSize
  | some (.block h indexIndex i got) =>
    h ≤ s.blockIndex ∧ indexIndex = slot (s.headers h).size (g.place h) (i / tr.blockSize) ∧
      index + actualCount ≤ g.written h * tr.blockSize ∧
      index ≤ i ∧ i < index + actualCount ∧ got = (s.base.items.drop index).take (i - index)
  | some (.element h indexIndex b first i got) =>
    h ≤ s.blockIndex ∧ indexIndex = slot (s.headers h).size (g.place h) (first / tr.blockSize) ∧
      index + actualCount ≤ g.written h * tr.blockSize ∧
      index ≤ first ∧ first ≤ i ∧ i < claimedEnd tr index actualCount first ∧
      g.blocks[first / tr.blockSize]? = some b ∧
      got = (s.base.items.drop index).take (i - index)
  | some (.emptying h indexIndex b first i j got) =>
    h ≤ s.blockIndex ∧ indexIndex = slot (s.headers h).size (g.place h) (first / tr.blockSize) ∧
      index + actualCount ≤ g.written h * tr.blockSize ∧
      index ≤ first ∧ j < i - first ∧ i = claimedEnd tr index actualCount first ∧
      g.blocks[first / tr.blockSize]? = some b ∧
      got = (s.base.items.drop index).take (i - index)
  | some (.done got) => got = (s.base.items.drop index).take actualCount

/-- The producer's side of the invariant. -/
structure Produces (tr : Traits) (s : ExplicitProducer T B τ) (g : History B) : Prop where
  ring : Linked (fun b => (s.block b).next) g.blocks g.start
  tail : s.tailBlock = Enqueue.tail g.blocks g.start s.enqueueing
  owned : ∀ b ∈ g.blocks, b ∈ s.owned
  used : s.slotsUsed + g.start = g.blocks.length
  room : s.slotsUsed ≤ (s.headers s.blockIndex).size
  listed : ∀ h, h ≤ s.blockIndex →
    Listed tr (s.headers h) g.blocks g.start (g.place h) (g.written h) (g.shown h)
  front : s.front =
    slot (s.headers s.blockIndex).size (g.place s.blockIndex) (g.shown s.blockIndex)
  written : g.written s.blockIndex + Enqueue.unwritten s.enqueueing = g.blocks.length
  shown : g.shown s.blockIndex + Enqueue.unshown s.enqueueing = g.blocks.length
  filling : Enqueue.Filling tr s.base.counters.tailIndex g.blocks.length s.enqueueing
  seen : ∀ c, g.blocks[g.start]? = some c → Enqueue.Seen tr (s.block c) s.enqueueing
  space : ∀ v, s.enqueueing = some (.requisitioning v) →
    s.blockIndex ≠ 0 ∧ s.slotsUsed < (s.headers s.blockIndex).size
  -- there are no blocks without a block index, and none is in the null pointer
  indexed : s.blockIndex = 0 → g.blocks = []
  null : g.written 0 = 0

/-- A call with indices of its own. -/
structure Reads (tr : Traits) (s : ExplicitProducer T B τ) (g : History B)
    (index actualCount : Nat) (r : Option (Dequeue B τ)) : Prop where
  moved : ∀ x, index ≤ x → x < index + actualCount →
    g.moved x = decide (x < Dequeue.movedTo index actualCount r)
  emptied : ∀ x, index ≤ x → x < index + actualCount → g.emptied x = Dequeue.emptied x r
  fits : Dequeue.Fits tr s g index actualCount r

/-- The consumers' side. -/
structure Consumes (tr : Traits) (s : ExplicitProducer T B τ) (g : History B) : Prop where
  sized : ∀ i max pc, s.base.calls i = some (max, pc) → pc.Sized
  reads : ∀ i max index actualCount, s.base.calls i = some (max, .claimed index actualCount) →
    Reads tr s g index actualCount (s.dequeueing i)
  apart : ∀ i j max max' index index' actualCount actualCount', i ≠ j →
    s.base.calls i = some (max, .claimed index actualCount) →
    s.base.calls j = some (max', .claimed index' actualCount') →
    index + actualCount ≤ index' ∨ index' + actualCount' ≤ index
  idle : ∀ i, (∀ max index actualCount,
    s.base.calls i ≠ some (max, .claimed index actualCount)) → s.dequeueing i = none
  returned : s.returned = s.base.got

/-- The invariant. -/
structure Kept (tr : Traits) (s : ExplicitProducer T B τ) (g : History B) : Prop where
  base : (SubQueue.nearSystem T τ).Reachable s.base
  stored : Stored tr s.block g.blocks (g.start + Enqueue.resetting s.enqueueing)
    (s.base.items ++ Enqueue.pending s.enqueueing) s.base.counters.headIndex g.moved g.emptied
  produces : Produces tr s g
  consumes : Consumes tr s g

variable {s s' : ExplicitProducer T B τ} {g g' : History B}

/-- Nothing has happened. -/
def History.nothing (B : Type) : History B :=
  ⟨[], 0, fun _ => false, fun _ => false, fun _ => 0, fun _ => 0, fun _ => 0⟩

theorem Kept.bare (tr : Traits) (T : Nat) (B τ : Type) :
    Kept tr (ExplicitProducer.bare tr T B τ) (History.nothing B) where
  base := .init
  stored := by
    refine ⟨?_, ?_, ?_, ?_, ?_⟩
    · intro i b _ hb
      cases hb
    · intro i b _ hb
      cases hb
    · intro i hi
      cases hi
    · intro i hi
      cases hi
    · intro i hi
      cases hi
  produces := by
    have hPos := Traits.blockSize_pos tr
    refine ⟨⟨le_rfl, ?_, ?_, ?_, List.nodup_nil⟩, rfl, ?_, rfl, Nat.zero_le _, ?_, ?_, rfl, rfl,
      ?_, ?_, ?_, fun _ => rfl, rfl⟩
    · intro hNe
      cases hNe rfl
    · intro q b c _ hb
      cases hb
    · intro b c hb
      cases hb
    · intro b hb
      cases hb
    · intro h _
      have hHalf : ((tr.indexSize * tr.blockSize : Nat) : Int) ∣ indexRange := by
        refine Int.dvd_trans ⟨2, ?_⟩ tr.fits
        rw [Nat.mul_assoc, Nat.mul_comm]
        rfl
      refine ⟨hHalf, ?_, ?_, le_rfl, le_rfl⟩
      · intro m hm
        cases hm
      · intro q _ hq
        cases hq
    · show (0 : Int) = slot _ 0 0
      unfold slot
      exact (Int.zero_emod _).symm
    · show 0 ≤ 0 * tr.blockSize ∧ 0 * tr.blockSize < 0 + tr.blockSize
      omega
    · intro c hc
      cases hc
    · intro v hPc
      cases hPc
  consumes := by
    refine ⟨?_, ?_, ?_, fun _ _ => rfl, rfl⟩
    · intro i max pc hCall
      cases hCall
    · intro i max index k hCall
      cases hCall
    · intro i j max max' index index' k k' _ hCall
      cases hCall

-- ---------------------------------------------------------------------------
-- What the counters say
-- ---------------------------------------------------------------------------

theorem Kept.tail_eq (h : Kept tr s g) : s.base.counters.tailIndex = s.base.items.length := by
  obtain ⟨won, failed, hIndexed⟩ := SubQueue.indexed_of_reachable h.base
  exact hIndexed.items

theorem Kept.head_le (h : Kept tr s g) : s.base.counters.headIndex ≤ s.base.items.length := by
  obtain ⟨won, failed, hIndexed⟩ := SubQueue.indexed_of_reachable h.base
  have hLe := hIndexed.head_le
  omega

theorem Kept.claimed_le (h : Kept tr s g) {i : Fin T} {max index actualCount : Nat}
    (hCall : s.base.calls i = some (max, .claimed index actualCount)) :
    index + actualCount ≤ s.base.counters.headIndex := by
  obtain ⟨won, failed, hIndexed⟩ := SubQueue.indexed_of_reachable h.base
  exact (hIndexed.fits hCall).2

/-- The block index in use has the blocks of all elements, and `front` leads
to the last of them. -/
theorem Produces.tail_le (h : Produces tr s g) :
    s.base.counters.tailIndex ≤ g.shown s.blockIndex * tr.blockSize := by
  have hFilling := h.filling
  have hShown := h.shown
  cases hPc : s.enqueueing with
  | none =>
    rw [hPc] at hFilling hShown
    rw [show g.shown s.blockIndex = g.blocks.length from hShown]
    exact hFilling.1
  | some pc =>
    rw [hPc] at hFilling hShown
    cases pc with
    | listing v | fronting v =>
      have hOne : (g.shown s.blockIndex + 1) * tr.blockSize = g.blocks.length * tr.blockSize :=
        congrArg (· * tr.blockSize) hShown
      have hTail : s.base.counters.tailIndex + tr.blockSize = g.blocks.length * tr.blockSize :=
        hFilling
      rw [Nat.add_mul] at hOne
      omega
    | constructing v | storing v | returning ok =>
      rw [show g.shown s.blockIndex = g.blocks.length from hShown]
      have hLe := hFilling.1
      omega
    | checking v i | reusing v i =>
      rw [show g.shown s.blockIndex = g.blocks.length from hShown]
      exact le_of_eq hFilling.2
    | measuring v | indexing v | requisitioning v =>
      rw [show g.shown s.blockIndex = g.blocks.length from hShown]
      exact le_of_eq hFilling

-- ---------------------------------------------------------------------------
-- The consumers
-- ---------------------------------------------------------------------------

/-- What consumers do leaves the producer's side as it is. -/
theorem Produces.consume (h : Produces tr s g) (base : SubQueue T τ) (block : B → Block B τ)
    (dequeueing : Fin T → Option (Dequeue B τ)) (returned : List (Fin T × List τ))
    (moved emptied : Nat → Bool)
    (hTail : base.counters.tailIndex = s.base.counters.tailIndex)
    (hNext : ∀ b, (block b).next = (s.block b).next)
    (hFlags : ∀ b i, (s.block b).emptyFlags i = true → (block b).emptyFlags i = true)
    (hOldest : ∀ c, Enqueue.resetting s.enqueueing ≠ 0 → g.blocks[g.start]? = some c →
      block c = s.block c) :
    Produces tr
      { s with base := base, block := block, dequeueing := dequeueing, returned := returned }
      { g with moved := moved, emptied := emptied } where
  ring := (funext hNext : (fun b => (block b).next) = fun b => (s.block b).next) ▸ h.ring
  tail := h.tail
  owned := h.owned
  used := h.used
  room := h.room
  listed := h.listed
  front := h.front
  written := h.written
  shown := h.shown
  filling := hTail ▸ h.filling
  seen := by
    intro c hc
    have hSeen := h.seen c hc
    dsimp only
    cases hPc : s.enqueueing with
    | none => trivial
    | some pc =>
      rw [hPc] at hSeen
      cases pc with
      | checking v i => exact ⟨hSeen.1, fun j hj => hFlags c j (hSeen.2 j hj)⟩
      | reusing v i =>
        rw [hOldest c (by rw [hPc]; exact Nat.one_ne_zero) hc]
        exact hSeen
      | _ => trivial
  space := h.space
  indexed := h.indexed
  null := h.null

/-- One call goes on; it moves out and empties no index but its own. -/
theorem Consumes.advance (h : Consumes tr s g) {i : Fin T} {max index actualCount : Nat}
    (hCall : s.base.calls i = some (max, .claimed index actualCount)) (block : B → Block B τ)
    (r : Dequeue B τ) (moved emptied : Nat → Bool)
    (hMoved : ∀ x, moved x = g.moved x ∨ (index ≤ x ∧ x < index + actualCount))
    (hEmptied : ∀ x, emptied x = g.emptied x ∨ (index ≤ x ∧ x < index + actualCount))
    (hReads : Reads tr s { g with moved := moved, emptied := emptied } index actualCount
      (some r)) :
    Consumes tr
      { s with block := block, dequeueing := Function.update s.dequeueing i (some r) }
      { g with moved := moved, emptied := emptied } where
  sized := h.sized
  reads := by
    intro j max' index' k' hj
    dsimp only at hj ⊢
    by_cases hEq : j = i
    · subst hEq
      rw [hCall] at hj
      cases hj
      rw [Function.update_self]
      exact ⟨hReads.moved, hReads.emptied, hReads.fits⟩
    · rw [Function.update_of_ne hEq]
      have hOther := h.reads j max' index' k' hj
      have hApart := h.apart j i max' max index' index k' actualCount hEq hj hCall
      refine ⟨?_, ?_, hOther.fits⟩
      · intro x hLow hHigh
        rw [← hOther.moved x hLow hHigh]
        rcases hMoved x with hSame | hOwn
        · exact hSame
        · omega
      · intro x hLow hHigh
        rw [← hOther.emptied x hLow hHigh]
        rcases hEmptied x with hSame | hOwn
        · exact hSame
        · omega
  apart := h.apart
  idle := by
    intro j hj
    have hEq : j ≠ i := by
      rintro rfl
      exact hj max index actualCount hCall
    exact (Function.update_of_ne hEq ..).trans (h.idle j hj)
  returned := h.returned

/-- A call goes on without touching a block. -/
theorem Kept.look (h : Kept tr s g) {i : Fin T} {max index actualCount : Nat}
    (hCall : s.base.calls i = some (max, .claimed index actualCount)) (r : Dequeue B τ)
    (hMoved : Dequeue.movedTo index actualCount (some r) =
      Dequeue.movedTo index actualCount (s.dequeueing i))
    (hEmptied : ∀ x, index ≤ x → x < index + actualCount →
      Dequeue.emptied x (some r) = Dequeue.emptied x (s.dequeueing i))
    (hFits : Dequeue.Fits tr s g index actualCount (some r)) :
    Kept tr { s with dequeueing := Function.update s.dequeueing i (some r) } g where
  base := h.base
  stored := h.stored
  produces := h.produces.consume s.base s.block _ s.returned g.moved g.emptied rfl
    (fun _ => rfl) (fun _ _ hFlag => hFlag) (fun _ _ _ => rfl)
  consumes := by
    have hReads := h.consumes.reads i max index actualCount hCall
    refine h.consumes.advance hCall s.block r g.moved g.emptied (fun _ => .inl rfl)
      (fun _ => .inl rfl) ⟨?_, ?_, hFits⟩
    · intro x hLow hHigh
      rw [hMoved]
      exact hReads.moved x hLow hHigh
    · intro x hLow hHigh
      rw [hEmptied x hLow hHigh]
      exact hReads.emptied x hLow hHigh

/-- The next access of the call goes through, and it keeps the invariant. -/
def Goes [DecidableEq B] (tr : Traits) (s : ExplicitProducer T B τ) (i : Fin T)
    (index actualCount : Nat) : Prop :=
  ∃ t r g', stepDequeue tr s index actualCount (s.dequeueing i) = some (t, r) ∧
    Kept tr { t with dequeueing := Function.update t.dequeueing i (some r) } g'

theorem distance_cast (a b : Int) : (distance a b : Int) = (a - b) % indexRange := by
  unfold distance indexRange
  omega

theorem Kept.reads (h : Kept tr s g) {i : Fin T} {max index actualCount : Nat}
    (hCall : s.base.calls i = some (max, .claimed index actualCount))
    {r : Option (Dequeue B τ)} (hAt : s.dequeueing i = r) : Reads tr s g index actualCount r :=
  hAt ▸ h.consumes.reads i max index actualCount hCall

/-- An index that a call is not done with is in the ring, and not in a block
that is being reset. -/
theorem Kept.resetting_le (h : Kept tr s g) {i : Fin T} {max index actualCount : Nat}
    (hCall : s.base.calls i = some (max, .claimed index actualCount)) {x : Nat}
    (hLow : index ≤ x) (hHigh : x < index + actualCount)
    (hNot : Dequeue.emptied x (s.dequeueing i) = false) :
    g.start + Enqueue.resetting s.enqueueing ≤ x / tr.blockSize := by
  have hReads := h.consumes.reads i max index actualCount hCall
  exact h.stored.start_le ((hReads.emptied x hLow hHigh).trans hNot)

theorem Kept.start_le (h : Kept tr s g) {i : Fin T} {max index actualCount : Nat}
    (hCall : s.base.calls i = some (max, .claimed index actualCount)) {x : Nat}
    (hLow : index ≤ x) (hHigh : x < index + actualCount)
    (hNot : Dequeue.emptied x (s.dequeueing i) = false) : g.start ≤ x / tr.blockSize :=
  (Nat.le_add_right ..).trans (h.resetting_le hCall hLow hHigh hNot)

/-- A write to a block that is not being reset leaves that one alone. -/
theorem Produces.oldest_eq [DecidableEq B] (h : Produces tr s g) {x : Nat} {b : B} {y : Block B τ}
    (hx : g.start + Enqueue.resetting s.enqueueing ≤ x / tr.blockSize)
    (hb : g.blocks[x / tr.blockSize]? = some b) (c : B)
    (hReset : Enqueue.resetting s.enqueueing ≠ 0) (hc : g.blocks[g.start]? = some c) :
    Function.update s.block b y c = s.block c := by
  refine Function.update_of_ne ?_ ..
  rintro rfl
  have hEq := h.ring.number_eq (by omega) le_rfl hb hc
  omega

section Access

variable [DecidableEq B] {i : Fin T} {max index actualCount : Nat}

theorem Kept.loadIndex (h : Kept tr s g)
    (hCall : s.base.calls i = some (max, .claimed index actualCount))
    (hAt : s.dequeueing i = none) : Goes tr s i index actualCount := by
  refine ⟨s, .header s.blockIndex, g, by rw [hAt]; rfl, h.look hCall _ ?_ ?_ ?_⟩
  · rw [hAt]
    rfl
  · intro x _ _
    rw [hAt]
    rfl
  · have hClaimed := h.claimed_le hCall
    have hHead := h.head_le
    have hTail := h.tail_eq
    have hLast := h.produces.tail_le
    exact ⟨le_rfl, by omega⟩

theorem Kept.loadFront (h : Kept tr s g)
    (hCall : s.base.calls i = some (max, .claimed index actualCount)) {hd : Nat}
    (hAt : s.dequeueing i = some (.header hd)) : Goes tr s i index actualCount := by
  obtain ⟨hHeader, hCovers⟩ := (h.reads hCall hAt).fits
  obtain ⟨hPos, -⟩ := h.consumes.sized i max _ hCall
  have hListed := h.produces.listed hd hHeader
  have hLe := hListed.shown_le
  obtain ⟨m, hm⟩ : ∃ m, g.shown hd = m + 1 := by
    refine Nat.exists_eq_add_one_of_ne_zero fun hZero => ?_
    rw [hZero, Nat.zero_mul] at hCovers
    omega
  have hNotNull : hd ≠ 0 := by
    rintro rfl
    have hNull := h.produces.null
    omega
  refine ⟨s, .front hd (s.headers hd).front, g, by rw [hAt, stepDequeue, if_neg hNotNull],
    h.look hCall _ ?_ ?_ ?_⟩
  · rw [hAt]
    rfl
  · intro x _ _
    rw [hAt]
    rfl
  · exact ⟨hHeader, m, hListed.front m hm, by omega, hm ▸ hCovers⟩

theorem Kept.findBlock (h : Kept tr s g)
    (hCall : s.base.calls i = some (max, .claimed index actualCount)) {hd : Nat} {head : Int}
    (hAt : s.dequeueing i = some (.front hd head)) : Goes tr s i index actualCount := by
  obtain ⟨hHeader, m, hHead, hWritten, hCovers⟩ := (h.reads hCall hAt).fits
  obtain ⟨hPos, -⟩ := h.consumes.sized i max _ hCall
  have hSize := Traits.blockSize_pos tr
  have hStart := h.start_le hCall le_rfl (by omega) (by rw [hAt]; rfl)
  have hNumber : index / tr.blockSize ≤ m :=
    Nat.le_of_lt_succ ((Nat.div_lt_iff_lt_mul hSize).mpr
      (show index < (m + 1) * tr.blockSize by omega))
  have hListed := h.produces.listed hd hHeader
  obtain ⟨b, -, hEntry⟩ := hListed.entry (hStart.trans hNumber) hWritten
  have hOffset : (head + ((distance ((index - index % tr.blockSize : Nat) : Int)
      ((m * tr.blockSize : Nat) : Int) / tr.blockSize : Nat) : Int)) % (s.headers hd).size =
      slot (s.headers hd).size (g.place hd) (index / tr.blockSize) := by
    rw [hHead, Int.natCast_div, distance_cast, block_start tr index]
    exact slot_offset hSize hListed.fits _ _ _
  refine ⟨s, .block hd (slot (s.headers hd).size (g.place hd) (index / tr.blockSize)) index [], g,
    ?_, h.look hCall _ ?_ ?_ ?_⟩
  · rw [hAt]
    simp only [stepDequeue, hHead, hEntry, Option.map_some]
    rw [← hHead, hOffset]
  · rw [hAt]
    rfl
  · intro x hLow _
    rw [hAt]
    exact decide_eq_false (by omega)
  · have hAll : (m + 1) * tr.blockSize ≤ g.written hd * tr.blockSize :=
      Nat.mul_le_mul_right _ hWritten
    refine ⟨hHeader, rfl, hCovers.trans hAll, le_rfl, by omega, ?_⟩
    rw [Nat.sub_self]
    rfl

theorem Kept.readBlock (h : Kept tr s g)
    (hCall : s.base.calls i = some (max, .claimed index actualCount)) {hd x : Nat}
    {indexIndex : Int} {got : List τ}
    (hAt : s.dequeueing i = some (.block hd indexIndex x got)) :
    Goes tr s i index actualCount := by
  obtain ⟨hHeader, hIndex, hCovers, hLow, hHigh, hGot⟩ := (h.reads hCall hAt).fits
  have hSize := Traits.blockSize_pos tr
  have hStart := h.start_le hCall hLow hHigh (by
    rw [hAt]
    exact decide_eq_false (Nat.lt_irrefl x))
  have hWritten : x / tr.blockSize < g.written hd :=
    (Nat.div_lt_iff_lt_mul hSize).mpr (show x < g.written hd * tr.blockSize by omega)
  obtain ⟨b, hBlock, hEntry⟩ := (h.produces.listed hd hHeader).entry hStart hWritten
  refine ⟨s, .element hd indexIndex b x x got, g, ?_, h.look hCall _ ?_ ?_ ?_⟩
  · rw [hAt]
    simp only [stepDequeue, hIndex, hEntry, Option.map_some]
  · rw [hAt]
    rfl
  · intro y _ _
    rw [hAt]
    rfl
  · refine ⟨hHeader, hIndex, hCovers, hLow, le_rfl, ?_, hBlock, hGot⟩
    have hEnd := block_end tr x
    have hMod := Nat.mod_lt x hSize
    exact lt_min hHigh (by omega)

theorem claimedEnd_le (tr : Traits) (index actualCount first : Nat) :
    claimedEnd tr index actualCount first ≤ index + actualCount := Nat.min_le_left ..

/-- The indices of a call in one block. -/
theorem div_eq_of_lt_claimedEnd {first x : Nat} (hLow : first ≤ x)
    (hHigh : x < claimedEnd tr index actualCount first) :
    x / tr.blockSize = first / tr.blockSize := by
  have hSize := Traits.blockSize_pos tr
  have hEnd : x < (first / tr.blockSize + 1) * tr.blockSize :=
    hHigh.trans_le (Nat.min_le_right ..)
  have hLt : x / tr.blockSize < first / tr.blockSize + 1 :=
    (Nat.div_lt_iff_lt_mul hSize).mpr hEnd
  have hGe : first / tr.blockSize ≤ x / tr.blockSize := Nat.div_le_div_right hLow
  omega

theorem Kept.moveOut (h : Kept tr s g)
    (hCall : s.base.calls i = some (max, .claimed index actualCount)) {hd first x : Nat}
    {indexIndex : Int} {b : B} {got : List τ}
    (hAt : s.dequeueing i = some (.element hd indexIndex b first x got)) :
    Goes tr s i index actualCount := by
  have hReads := h.reads hCall hAt
  obtain ⟨hHeader, hIndex, hCovers, hLow, hFirst, hHigh, hBlock, hGot⟩ := hReads.fits
  obtain ⟨hPos, hHalf⟩ := h.consumes.sized i max _ hCall
  have hEnd := claimedEnd_le tr index actualCount first
  have hDiv := div_eq_of_lt_claimedEnd hFirst hHigh
  have hStart := h.resetting_le hCall (x := x) (by omega) (by omega) (by
    rw [hAt]
    exact decide_eq_false (by omega))
  rw [← hDiv] at hBlock
  have hHead : x < s.base.counters.headIndex := by
    have hClaimed := h.claimed_le hCall
    omega
  have hItems : x < s.base.items.length := hHead.trans_le h.head_le
  have hNotMoved : g.moved x = false :=
    (hReads.moved x (by omega) (by omega)).trans (decide_eq_false (Nat.lt_irrefl x))
  have hElement : (s.block b).elements (x % tr.blockSize) = some s.base.items[x] := by
    rw [h.stored.element x b hStart hBlock, hNotMoved, List.getElem?_append_left hItems,
      List.getElem?_eq_getElem hItems]
    rfl
  have hTaken : got ++ [s.base.items[x]] = (s.base.items.drop index).take (x + 1 - index) := by
    rw [hGot, show x + 1 - index = x - index + 1 by omega, List.take_add_one, List.getElem?_drop,
      Nat.add_sub_cancel' (by omega : index ≤ x), List.getElem?_eq_getElem hItems]
    rfl
  have hClaimedEnd := endIndex_eq tr hHalf hLow (by omega : first < index + actualCount)
  let block := Function.update s.block b { s.block b with
    elements := Function.update (s.block b).elements (x % tr.blockSize) none }
  let r : Dequeue B τ :=
    if x + 1 = endIndex tr index actualCount first then
      .emptying hd indexIndex b first (x + 1) 0 (got ++ [s.base.items[x]])
    else .element hd indexIndex b first (x + 1) (got ++ [s.base.items[x]])
  have hMovedTo : Dequeue.movedTo index actualCount (some r) = x + 1 := by
    dsimp only [r]
    split <;> rfl
  have hEmptied : ∀ y, Dequeue.emptied y (some r) = decide (y < first) := by
    intro y
    dsimp only [r]
    split
    · refine decide_eq_decide.mpr ⟨fun hy => ?_, .inl⟩
      rcases hy with hy | hy
      · exact hy
      · omega
    · rfl
  have hFits : Dequeue.Fits tr s g index actualCount (some r) := by
    dsimp only [r]
    split
    · next hLast =>
      exact ⟨hHeader, hIndex, hCovers, hLow, by omega, hLast.trans hClaimedEnd, hDiv ▸ hBlock,
        hTaken⟩
    · next hMore =>
      have hNotEnd : x + 1 ≠ claimedEnd tr index actualCount first := fun hEq =>
        hMore (hEq.trans hClaimedEnd.symm)
      exact ⟨hHeader, hIndex, hCovers, hLow, by omega, by omega, hDiv ▸ hBlock, hTaken⟩
  refine ⟨{ s with block := block }, r, { g with moved := Function.update g.moved x true }, ?_,
    h.base, h.stored.moveOut h.produces.ring (Nat.le_add_right ..) hStart hBlock hHead, ?_, ?_⟩
  · rw [hAt]
    simp only [stepDequeue, hElement, Option.map_some]
    rfl
  · refine h.produces.consume s.base block _ s.returned _ g.emptied rfl ?_ ?_
      (h.produces.oldest_eq hStart hBlock)
    · intro c
      exact update_part Block.next s.block b c rfl
    · intro c j hFlag
      have hSame : (block c).emptyFlags = (s.block c).emptyFlags :=
        update_part Block.emptyFlags s.block b c rfl
      rw [hSame]
      exact hFlag
  · refine h.consumes.advance hCall block r _ g.emptied ?_ (fun _ => .inl rfl) ⟨?_, ?_, hFits⟩
    · intro y
      by_cases hEq : y = x
      · exact .inr (by omega)
      · exact .inl (Function.update_of_ne hEq ..)
    · intro y hy hy'
      rw [hMovedTo]
      dsimp only
      rw [Function.update_apply]
      split
      · next hEq => exact (decide_eq_true (by omega)).symm
      · next hEq =>
        rw [hReads.moved y hy hy']
        refine decide_eq_decide.mpr ?_
        show y < x ↔ y < x + 1
        omega
    · intro y hy hy'
      rw [hEmptied]
      exact hReads.emptied y hy hy'

/-- The flags are set from the last index of the block on. -/
theorem flag_place {first x j y : Nat} (hy : y + 1 + j = x) (hFirst : first ≤ y)
    (hLast : x = claimedEnd tr index actualCount first) :
    y / tr.blockSize = first / tr.blockSize ∧
      (tr.blockSize : Int) - 1 - (first % tr.blockSize : Nat) - (x - first : Nat) + 1 + j =
        (tr.blockSize - 1 - y % tr.blockSize : Nat) := by
  have hSize := Traits.blockSize_pos tr
  have hDiv : y / tr.blockSize = first / tr.blockSize :=
    div_eq_of_lt_claimedEnd hFirst (by omega : y < claimedEnd tr index actualCount first)
  refine ⟨hDiv, ?_⟩
  have hQuot := Nat.div_add_mod first tr.blockSize
  have hThis := Nat.div_add_mod y tr.blockSize
  have hMod := Nat.mod_lt y hSize
  rw [hDiv] at hThis
  omega

theorem Kept.setEmpty (h : Kept tr s g)
    (hCall : s.base.calls i = some (max, .claimed index actualCount)) {hd first x j : Nat}
    {indexIndex : Int} {b : B} {got : List τ}
    (hAt : s.dequeueing i = some (.emptying hd indexIndex b first x j got)) :
    Goes tr s i index actualCount := by
  have hReads := h.reads hCall hAt
  obtain ⟨hHeader, hIndex, hCovers, hLow, hMore, hLast, hBlock, hGot⟩ := hReads.fits
  have hSize := Traits.blockSize_pos tr
  have hEnd := claimedEnd_le tr index actualCount first
  obtain ⟨y, hy⟩ : ∃ y, y + 1 + j = x := ⟨x - j - 1, by omega⟩
  obtain ⟨hDiv, hPlace⟩ := flag_place hy (by omega) hLast
  have hStart := h.resetting_le hCall (x := y) (by omega) (by omega) (by
    rw [hAt]
    exact decide_eq_false (by omega))
  rw [← hDiv] at hBlock
  have hMoved : g.moved y = true :=
    (hReads.moved y (by omega) (by omega)).trans (decide_eq_true (show y < x by omega))
  let block := Function.update s.block b { s.block b with
    emptyFlags := Function.update (s.block b).emptyFlags
      (tr.blockSize - 1 - y % tr.blockSize) true }
  let r : Dequeue B τ :=
    if j + 1 = x - first then
      if x = index + actualCount then .done got
      else .block hd ((indexIndex + 1) % (s.headers hd).size) x got
    else .emptying hd indexIndex b first x (j + 1) got
  have hMovedTo : Dequeue.movedTo index actualCount (some r) = x := by
    dsimp only [r]
    split
    · split
      · next hAll => exact hAll.symm
      · rfl
    · rfl
  have hEmptied : ∀ z, index ≤ z → z < index + actualCount →
      Dequeue.emptied z (some r) = decide (z < first ∨ (x ≤ z + (j + 1) ∧ z < x)) := by
    intro z hz hz'
    dsimp only [r]
    split
    · split
      · exact (decide_eq_true (by omega)).symm
      · exact decide_eq_decide.mpr (by omega)
    · rfl
  have hFits : Dequeue.Fits tr s g index actualCount (some r) := by
    dsimp only [r]
    split
    · split
      · next hAll =>
        show got = _
        rw [hGot, hAll, Nat.add_sub_cancel_left]
      · next hNotAll =>
        -- the next block comes next in the block index
        have hNext : x = (first / tr.blockSize + 1) * tr.blockSize := by
          unfold claimedEnd at hLast
          omega
        refine ⟨hHeader, ?_, hCovers, by omega, by omega, hGot⟩
        rw [hIndex, slot_succ, hNext, Nat.mul_div_cancel _ hSize]
    · exact ⟨hHeader, hIndex, hCovers, hLow, by omega, hLast, hDiv ▸ hBlock, hGot⟩
  refine ⟨{ s with block := block }, r, { g with emptied := Function.update g.emptied y true }, ?_,
    h.base, h.stored.setEmpty h.produces.ring (Nat.le_add_right ..) hStart hBlock hMoved, ?_, ?_⟩
  · rw [hAt]
    simp only [stepDequeue, hPlace, Int.toNat_natCast]
    rfl
  · refine h.produces.consume s.base block _ s.returned g.moved _ rfl ?_ ?_
      (h.produces.oldest_eq hStart hBlock)
    · intro c
      exact update_part Block.next s.block b c rfl
    · intro c k hFlag
      dsimp only [block]
      rw [Function.update_apply]
      split
      · next hEq =>
        subst hEq
        dsimp only
        rw [Function.update_apply]
        split
        · rfl
        · exact hFlag
      · exact hFlag
  · refine h.consumes.advance hCall block r g.moved _ (fun _ => .inl rfl) ?_ ⟨?_, ?_, hFits⟩
    · intro z
      by_cases hEq : z = y
      · exact .inr (by omega)
      · exact .inl (Function.update_of_ne hEq ..)
    · intro z hz hz'
      rw [hMovedTo]
      exact hReads.moved z hz hz'
    · intro z hz hz'
      rw [hEmptied z hz hz']
      dsimp only
      rw [Function.update_apply]
      split
      · next hEq => exact (decide_eq_true (by omega)).symm
      · next hEq =>
        rw [hReads.emptied z hz hz']
        exact decide_eq_decide.mpr (by omega)

/-- **A call that has its indices can go on**, until it is done. -/
theorem Kept.goes (h : Kept tr s g)
    (hCall : s.base.calls i = some (max, .claimed index actualCount))
    (hMore : ∀ got, s.dequeueing i ≠ some (.done got)) : Goes tr s i index actualCount := by
  cases hAt : s.dequeueing i with
  | none => exact h.loadIndex hCall hAt
  | some r =>
    cases r with
    | header hd => exact h.loadFront hCall hAt
    | front hd head => exact h.findBlock hCall hAt
    | block hd indexIndex x got => exact h.readBlock hCall hAt
    | element hd indexIndex b first x got => exact h.moveOut hCall hAt
    | emptying hd indexIndex b first x j got => exact h.setEmpty hCall hAt
    | done got => exact absurd hAt (hMore got)

end Access

-- ---------------------------------------------------------------------------
-- Calls of consumers
-- ---------------------------------------------------------------------------

/-- A call that has no indices yet goes on, or one returns. What it claims is
behind all that has been claimed before. -/
theorem Kept.pass (h : Kept tr s g) (i : Fin T) (x : Option (Nat × SubQueue.Pc))
    (c : SubQueue.Counters) (got returned : List (Fin T × List τ))
    (hBase : (SubQueue.nearSystem T τ).Reachable
      { s.base with counters := c, calls := Function.update s.base.calls i x, got := got })
    (hTail : c.tailIndex = s.base.counters.tailIndex)
    (hHead : s.base.counters.headIndex ≤ c.headIndex)
    (hSized : ∀ max pc, x = some (max, pc) → pc.Sized)
    (hClaim : ∀ max index actualCount, x = some (max, .claimed index actualCount) →
      index = s.base.counters.headIndex)
    (hReturned : returned = got) :
    Kept tr { s with
      base := { s.base with counters := c, calls := Function.update s.base.calls i x, got := got }
      dequeueing := Function.update s.dequeueing i none
      returned := returned } g where
  base := hBase
  stored := h.stored.mono hHead
  produces := h.produces.consume _ s.block _ returned g.moved g.emptied hTail (fun _ => rfl)
    (fun _ _ hFlag => hFlag) (fun _ _ _ => rfl)
  consumes := by
    refine ⟨?_, ?_, ?_, ?_, hReturned⟩
    · intro j max pc hj
      dsimp only at hj
      by_cases hEq : j = i
      · subst hEq
        rw [Function.update_self] at hj
        exact hSized max pc hj
      · rw [Function.update_of_ne hEq] at hj
        exact h.consumes.sized j max pc hj
    · intro j max index actualCount hj
      dsimp only at hj ⊢
      by_cases hEq : j = i
      · subst hEq
        rw [Function.update_self] at hj ⊢
        have hIndex := hClaim max index actualCount hj
        -- nobody has moved out what nobody had claimed
        have hFresh : ∀ y, index ≤ y → g.moved y = false := by
          intro y hy
          rw [Bool.eq_false_iff]
          intro hTrue
          have hLt := h.stored.lt_of_moved y hTrue
          omega
        refine ⟨?_, ?_, trivial⟩
        · intro y hy _
          rw [hFresh y hy]
          exact (decide_eq_false (Nat.not_lt_of_le hy)).symm
        · intro y hy _
          show g.emptied y = false
          rw [Bool.eq_false_iff]
          intro hTrue
          have hMoved := h.stored.moved_of_emptied y hTrue
          rw [hFresh y hy] at hMoved
          cases hMoved
      · rw [Function.update_of_ne hEq] at hj ⊢
        have hOld := h.consumes.reads j max index actualCount hj
        exact ⟨hOld.moved, hOld.emptied, hOld.fits⟩
    · intro j k max max' index index' count count' hNe hj hk
      dsimp only at hj hk
      by_cases hji : j = i
      · subst hji
        rw [Function.update_self] at hj
        rw [Function.update_of_ne (Ne.symm hNe)] at hk
        have hIndex := hClaim max index count hj
        have hOld := h.claimed_le hk
        exact .inr (by omega)
      · rw [Function.update_of_ne hji] at hj
        by_cases hki : k = i
        · subst hki
          rw [Function.update_self] at hk
          have hIndex := hClaim max' index' count' hk
          have hOld := h.claimed_le hj
          exact .inl (by omega)
        · rw [Function.update_of_ne hki] at hk
          exact h.consumes.apart j k max max' index index' count count' hNe hj hk
    · intro j hj
      dsimp only at hj ⊢
      by_cases hEq : j = i
      · subst hEq
        exact Function.update_self ..
      · rw [Function.update_of_ne hEq] at hj ⊢
        exact h.consumes.idle j hj

theorem update_none {i : Fin T} (h : s.dequeueing i = none) :
    Function.update s.dequeueing i none = s.dequeueing := by
  rw [← h]
  exact Function.update_eq_self i s.dequeueing

theorem Kept.reachable (h : Kept tr s g) {l : SubQueue.Label T τ} {base : SubQueue T τ}
    (hNear : SubQueue.near s.base l = true) (hStep : s.base.step l = some base) :
    (SubQueue.nearSystem T τ).Reachable base :=
  System.Reachable.step h.base (System.restrict_step.mpr ⟨hNear, hStep⟩)

/-- `dequeue_bulk` is called. -/
theorem Kept.call (h : Kept tr s g) {i : Fin T} {max : Nat} (hMax : max ≠ 0)
    {base : SubQueue T τ} (hStep : s.base.step (.call i max) = some base) :
    Kept tr { s with base := base } g := by
  have hReachable := h.reachable rfl hStep
  simp only [SubQueue.step] at hStep
  split at hStep
  · next hIdle =>
    cases hStep
    have hNone : s.dequeueing i = none := by
      refine h.consumes.idle i fun max' index actualCount hCall => ?_
      rw [hIdle] at hCall
      cases hCall
    have hPass := h.pass i (some (max, SubQueue.dequeueBulk max)) s.base.counters s.base.got
      s.returned hReachable rfl le_rfl ?_ ?_ h.consumes.returned
    · rwa [update_none hNone] at hPass
    · intro max' pc hEq
      cases hEq
      exact Nat.pos_of_ne_zero hMax
    · intro max' index actualCount hEq
      cases hEq
  · cases hStep

/-- A call that has no indices yet makes an access. -/
theorem Kept.baseStep (h : Kept tr s g) {i : Fin T}
    (hNear : SubQueue.near s.base (.step i) = true) {base : SubQueue T τ}
    (hStep : s.base.step (.step i) = some base)
    (hNot : ∀ max index actualCount, s.base.calls i ≠ some (max, .claimed index actualCount)) :
    Kept tr { s with base := base } g := by
  have hReachable := h.reachable hNear hStep
  have hNone := h.consumes.idle i hNot
  simp only [SubQueue.step] at hStep
  split at hStep
  · next max pc hCall =>
    obtain ⟨⟨c, pc'⟩, hAccess, rfl⟩ := Option.map_eq_some_iff.mp hStep
    obtain ⟨hTail, hHead, hClaim⟩ := SubQueue.stepCall_counters hAccess
    have hPass := h.pass i (some (max, pc')) c s.base.got s.returned hReachable hTail hHead ?_ ?_
      h.consumes.returned
    · rwa [update_none hNone] at hPass
    · intro max' pc₁ hEq
      cases hEq
      exact SubQueue.stepCall_sized (h.consumes.sized i max pc hCall) hAccess
    · intro max' index actualCount hEq
      cases hEq
      exact hClaim index actualCount rfl
  · cases hStep

/-- `dequeue_bulk` returns. -/
theorem Kept.ret (h : Kept tr s g) {i : Fin T} {max : Nat} {pc : SubQueue.Pc} {got : List τ}
    (hCall : s.base.calls i = some (max, pc)) (hGot : pc.taken s.base.items = some got)
    {base : SubQueue T τ} (hStep : s.base.step (.ret i) = some base) :
    Kept tr { s with
      base := base
      dequeueing := Function.update s.dequeueing i none
      returned := s.returned ++ [(i, got)] } g := by
  have hReachable := h.reachable rfl hStep
  simp only [SubQueue.step, hCall, hGot, Option.map_some, Option.some.injEq] at hStep
  subst hStep
  refine h.pass i none s.base.counters _ _ hReachable rfl le_rfl ?_ ?_ ?_
  · intro max' pc' hEq
    cases hEq
  · intro max' index actualCount hEq
    cases hEq
  · rw [h.consumes.returned]

end ExplicitProducer

end ThreadPool.Model
