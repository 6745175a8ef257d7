import Mathlib.Algebra.Group.Int.Defs
import ThreadPool.Lib.Tally
import ThreadPool.Lib.Tickets
import ThreadPool.Model.Process

/-!
# ThreadPool — the indices of a sub-queue

Every producer of the queue has a sub-queue of its own: one thread appends,
any number dequeue. `ExplicitProducer` and `ImplicitProducer` share the four
counters of `ProducerBase` and the way they are used, which is this module:
`dequeue` and `dequeue_bulk` from their first load to the index they may read
from. A step is one access to one of the counters; accesses are sequentially
consistent.

The counters are kept as numbers that do not wrap; what the code computes from
them it computes modulo `2 ^ 64`, as the code does.

* `Pc`, `stepCall` — a call, one access at a time;
* `Step` — every way a call can go;
* `Fifo` — what a sub-queue is for: a list that calls take elements from the
  front of.

What holds of every run is in `Model/Indices.lean`.
-/

namespace ThreadPool.Model

open ThreadPool.Lib

/-- The number of values of `index_t`, which is `2 ^ 64`, and half of it. -/
def indexRange : Int := 18446744073709551616
def indexHalf : Int := 9223372036854775808

/-- `details::circular_less_than` at the type `index_t`. -/
def circularLessThan (a b : Int) : Bool := indexHalf < (a - b) % indexRange

/-- A difference of two indices, as `size_t`. -/
def distance (a b : Int) : Nat := ((a - b) % indexRange).toNat

namespace SubQueue

/-- The counters of `ProducerBase`. -/
structure Counters where
  tailIndex : Nat
  headIndex : Nat
  dequeueOptimisticCount : Nat
  dequeueOvercommit : Nat

/-- Where a call of `dequeue_bulk` stands. -/
inductive Pc
  /-- at the load of `tailIndex` -/
  | entered (max : Nat)
  /-- at the load of `dequeueOvercommit` -/
  | tailLoaded (max tail : Nat)
  /-- at the load of `dequeueOptimisticCount` -/
  | overcommitLoaded (max tail overcommit : Nat)
  /-- at the `fetch_add` on `dequeueOptimisticCount` -/
  | counting (desiredCount overcommit : Nat)
  /-- at the second load of `tailIndex` -/
  | counted (desiredCount overcommit myDequeueCount : Nat)
  /-- at the `fetch_add` on `dequeueOvercommit` -/
  | correcting (surplus actualCount : Nat)
  /-- at the `fetch_add` on `headIndex` -/
  | claiming (actualCount : Nat)
  /-- past it, entitled to the elements from `index` on -/
  | claimed (index actualCount : Nat)
  /-- returns 0 -/
  | nothing
  deriving DecidableEq

/-- `dequeue_bulk(itemFirst, max)`. -/
def dequeueBulk (max : Nat) : Pc := .entered max

/-- `dequeue(element)`: its comparisons are those of a bulk of one
(`circularLessThan_distance`). -/
def dequeue : Pc := dequeueBulk 1

/-- `if (actualCount < desiredCount)`. -/
def settle (desiredCount actualCount : Nat) : Pc :=
  if actualCount < desiredCount then .correcting (desiredCount - actualCount) actualCount
  else .claiming actualCount

/-- One access of a call. -/
def stepCall (s : Counters) : Pc → Option (Counters × Pc)
  | .entered max => some (s, .tailLoaded max s.tailIndex)
  | .tailLoaded max tail => some (s, .overcommitLoaded max tail s.dequeueOvercommit)
  | .overcommitLoaded max tail overcommit =>
    let desiredCount := distance tail ((s.dequeueOptimisticCount : Int) - overcommit)
    some (s,
      if circularLessThan 0 desiredCount then .counting (min desiredCount max) overcommit
      else .nothing)
  | .counting desiredCount overcommit =>
    some ({ s with dequeueOptimisticCount := s.dequeueOptimisticCount + desiredCount },
      .counted desiredCount overcommit s.dequeueOptimisticCount)
  | .counted desiredCount overcommit myDequeueCount =>
    let actualCount := distance s.tailIndex ((myDequeueCount : Int) - overcommit)
    some (s,
      if circularLessThan 0 actualCount then settle desiredCount (min desiredCount actualCount)
      else .correcting desiredCount 0)
  | .correcting surplus actualCount =>
    some ({ s with dequeueOvercommit := s.dequeueOvercommit + surplus },
      if actualCount = 0 then .nothing else .claiming actualCount)
  | .claiming actualCount =>
    some ({ s with headIndex := s.headIndex + actualCount }, .claimed s.headIndex actualCount)
  | .claimed _ _ => none
  | .nothing => none

/-- `size_approx()`. -/
def sizeApprox (s : Counters) : Nat :=
  if circularLessThan s.headIndex s.tailIndex then distance s.tailIndex s.headIndex else 0

end SubQueue

/-- A sub-queue and the threads that dequeue from it. `items` are the elements
appended so far: slot `i` holds `items[i]` from the moment the tail has passed
it until it is dequeued. A call in progress has its argument `max` with it;
`got` is history. -/
structure SubQueue (T : Nat) (τ : Type) where
  counters : SubQueue.Counters
  items : List τ
  calls : Fin T → Option (Nat × SubQueue.Pc)
  got : List (Fin T × List τ)

namespace SubQueue

variable {T : Nat} {τ : Type}

inductive Label (T : Nat) (τ : Type)
  /-- the producer has constructed `vs` and stores the new tail -/
  | enqueue (vs : List τ)
  | call (i : Fin T) (max : Nat)
  | step (i : Fin T)
  | ret (i : Fin T)

/-- The elements a call is entitled to, once it is. -/
def Pc.taken (items : List τ) : Pc → Option (List τ)
  | .claimed index actualCount => some ((items.drop index).take actualCount)
  | .nothing => some []
  | _ => none

def step (s : SubQueue T τ) : Label T τ → Option (SubQueue T τ)
  | .enqueue vs =>
    some { s with
      counters := { s.counters with tailIndex := s.counters.tailIndex + vs.length }
      items := s.items ++ vs }
  | .call i max =>
    match s.calls i with
    | none => some { s with calls := Function.update s.calls i (some (max, dequeueBulk max)) }
    | some _ => none
  | .step i =>
    match s.calls i with
    | some (max, pc) =>
      (stepCall s.counters pc).map fun r =>
        { s with counters := r.1, calls := Function.update s.calls i (some (max, r.2)) }
    | none => none
  | .ret i =>
    match s.calls i with
    | some (_, pc) =>
      (pc.taken s.items).map fun vs =>
        { s with calls := Function.update s.calls i none, got := s.got ++ [(i, vs)] }
    | none => none

/-- `ProducerBase` constructed, and `T` threads that may dequeue. -/
def system (T : Nat) (τ : Type) : System (SubQueue T τ) (Label T τ) where
  init := ⟨⟨0, 0, 0, 0⟩, [], fun _ => none, []⟩
  step := step

-- ---------------------------------------------------------------------------
-- What a sub-queue is for
-- ---------------------------------------------------------------------------

/-- A list of elements, and the calls in progress: how many elements they may
take, and what they have taken. -/
structure Fifo (T : Nat) (τ : Type) where
  queue : List τ
  calls : Fin T → Option (Nat × Option (List τ))
  got : List (Fin T × List τ)

namespace Fifo

/-- Elements enter at the end. A call takes elements from the front, all of
them at one moment, and returns with what it took. -/
inductive Label (T : Nat) (τ : Type)
  | enqueue (vs : List τ)
  | call (i : Fin T) (max : Nat)
  | take (i : Fin T) (k : Nat)
  | ret (i : Fin T)

def step (s : Fifo T τ) : Label T τ → Option (Fifo T τ)
  | .enqueue vs => some { s with queue := s.queue ++ vs }
  | .call i max =>
    match s.calls i with
    | none => some { s with calls := Function.update s.calls i (some (max, none)) }
    | some _ => none
  | .take i k =>
    match s.calls i with
    | some (max, none) =>
      if k ≤ max ∧ k ≤ s.queue.length then
        some { s with
          queue := s.queue.drop k
          calls := Function.update s.calls i (some (max, some (s.queue.take k))) }
      else none
    | _ => none
  | .ret i =>
    match s.calls i with
    | some (_, some vs) =>
      some { s with calls := Function.update s.calls i none, got := s.got ++ [(i, vs)] }
    | _ => none

def system (T : Nat) (τ : Type) : System (Fifo T τ) (Label T τ) where
  init := ⟨[], fun _ => none, []⟩
  step := step

end Fifo

-- ---------------------------------------------------------------------------
-- The comparisons
-- ---------------------------------------------------------------------------

/-- Two counters are less than `2 ^ 63` apart. -/
def Near (a b : Int) : Prop := -indexHalf ≤ a - b ∧ a - b < indexHalf

instance (a b : Int) : Decidable (Near a b) := inferInstanceAs (Decidable (_ ∧ _))

/-- The test of `dequeue` is the test of `dequeue_bulk`. -/
theorem circularLessThan_distance (a b : Int) :
    circularLessThan 0 (distance b a) = circularLessThan a b := by
  unfold circularLessThan distance indexRange
  congr 1
  rw [Int.toNat_of_nonneg (by omega)]
  have hSame : (0 - (b - a) % 18446744073709551616) % 18446744073709551616 =
      (a - b) % 18446744073709551616 := by omega
  rw [hSame]

theorem circularLessThan_iff {a b : Int} (hNear : Near b a) :
    circularLessThan a b = true ↔ a < b := by
  obtain ⟨hLow, hHigh⟩ := hNear
  unfold circularLessThan
  rw [decide_eq_true_iff]
  unfold indexHalf indexRange at *
  omega

theorem distance_eq {a b : Int} (hNear : Near b a) (hLt : a < b) :
    (distance b a : Int) = b - a := by
  obtain ⟨-, hHigh⟩ := hNear
  unfold distance indexRange
  unfold indexHalf at hHigh
  omega

-- ---------------------------------------------------------------------------
-- Steps
-- ---------------------------------------------------------------------------

/-- The second load of the tail finds it near to what the call has counted. -/
def inWindow (s : Counters) : Pc → Bool
  | .counted _ overcommit myDequeueCount =>
    decide (Near s.tailIndex ((myDequeueCount : Int) - overcommit))
  | _ => true

/-- Every way an access of a call can go, the counters being near. -/
inductive Step (s : Counters) : Pc → Counters → Pc → Prop
  | loadTail (max : Nat) : Step s (.entered max) s (.tailLoaded max s.tailIndex)
  | loadOvercommit (max tail : Nat) :
      Step s (.tailLoaded max tail) s (.overcommitLoaded max tail s.dequeueOvercommit)
  | want (max tail overcommit desiredCount : Nat) (hMax : desiredCount ≤ max) :
      Step s (.overcommitLoaded max tail overcommit) s (.counting desiredCount overcommit)
  | empty (max tail overcommit : Nat) :
      Step s (.overcommitLoaded max tail overcommit) s .nothing
  | count (desiredCount overcommit : Nat) :
      Step s (.counting desiredCount overcommit)
        { s with dequeueOptimisticCount := s.dequeueOptimisticCount + desiredCount }
        (.counted desiredCount overcommit s.dequeueOptimisticCount)
  | short (desiredCount overcommit myDequeueCount actualCount : Nat)
      (hDesired : actualCount ≤ desiredCount)
      (hFits : 0 < actualCount → myDequeueCount + actualCount ≤ s.tailIndex + overcommit) :
      Step s (.counted desiredCount overcommit myDequeueCount) s
        (.correcting (desiredCount - actualCount) actualCount)
  | full (desiredCount overcommit myDequeueCount : Nat)
      (hFits : 0 < desiredCount → myDequeueCount + desiredCount ≤ s.tailIndex + overcommit) :
      Step s (.counted desiredCount overcommit myDequeueCount) s (.claiming desiredCount)
  | correct (surplus actualCount : Nat) :
      Step s (.correcting surplus actualCount)
        { s with dequeueOvercommit := s.dequeueOvercommit + surplus }
        (if actualCount = 0 then .nothing else .claiming actualCount)
  | claim (actualCount : Nat) :
      Step s (.claiming actualCount) { s with headIndex := s.headIndex + actualCount }
        (.claimed s.headIndex actualCount)

theorem stepCall_cases {s s' : Counters} {pc pc' : Pc} (hWindow : inWindow s pc = true)
    (h : stepCall s pc = some (s', pc')) : Step s pc s' pc' := by
  cases pc with
  | entered max => cases h; exact .loadTail max
  | tailLoaded max tail => cases h; exact .loadOvercommit max tail
  | overcommitLoaded max tail overcommit =>
    cases h
    split
    · exact .want _ _ _ _ (Nat.min_le_right ..)
    · exact .empty ..
  | counting desiredCount overcommit => cases h; exact .count ..
  | counted desiredCount overcommit myDequeueCount =>
    have hNear : Near s.tailIndex ((myDequeueCount : Int) - overcommit) := of_decide_eq_true hWindow
    cases h
    rw [circularLessThan_distance]
    split
    · next hSome =>
      have hLt := (circularLessThan_iff hNear).mp hSome
      have hActual := distance_eq hNear hLt
      unfold settle
      split
      · exact .short _ _ _ _ (Nat.min_le_left ..) fun _ => by omega
      · next hAll =>
        rw [Nat.min_eq_left (by omega)]
        exact .full _ _ _ fun _ => by omega
    · exact .short _ _ _ 0 (Nat.zero_le _) fun hPos => absurd hPos (Nat.lt_irrefl 0)
  | correcting surplus actualCount => cases h; exact .correct ..
  | claiming actualCount => cases h; exact .claim actualCount
  | claimed index actualCount => cases h
  | nothing => cases h

end SubQueue

end ThreadPool.Model
