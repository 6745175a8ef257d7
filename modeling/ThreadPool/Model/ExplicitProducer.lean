import ThreadPool.Lib.Ring
import ThreadPool.Model.SubQueue

/-!
# ThreadPool — the blocks of a sub-queue

Where `ExplicitProducer` keeps its elements: in blocks, which form a ring that
the producer goes round, reusing a block once all of its elements have been
dequeued, and a circular index that tells the consumers which block has which
indices. The producer's `enqueue` and any number of calls of `dequeue_bulk`
run at the same time; a step is one access to what they share, and accesses
are sequentially consistent.

A consumer first gets its indices, as in `Model/SubQueue.lean`: the counters
are those of a `SubQueue`, the base of the producer. Memory that has not been
written holds `none`, and a call that reads it is stuck, as is one that follows
a null pointer.

* `Enqueue`, `stepEnqueue` — `enqueue`, with `new_block_index`;
* `Dequeue`, `stepDequeue` — `dequeue_bulk`, from its claim to its return.

What holds of every run is in `Model/Storage.lean`.
-/

namespace ThreadPool.Model

open ThreadPool.Lib

/-- `BLOCK_SIZE`, and `pr_blockIndexSize` before there is a block index; the
first one is twice that size. Both are powers of 2 and a block has at least 2
elements, so `x & (BLOCK_SIZE - 1)` is a remainder. -/
structure Traits where
  blockSize : Nat
  indexSize : Nat
  one_lt_blockSize : 1 < blockSize
  indexSize_pos : 0 < indexSize
  fits : ((2 * indexSize * blockSize : Nat) : Int) ∣ indexRange

/-- A block. `elements` and `emptyFlags` are by position; `none` is raw memory. -/
structure Block (B τ : Type) where
  next : Option B
  elements : Nat → Option τ
  emptyFlags : Nat → Bool

structure BlockIndexEntry (B : Type) where
  base : Nat
  block : B

/-- A block index, with room for `size` entries. -/
structure BlockIndexHeader (B : Type) where
  size : Nat
  front : Int
  entries : Int → Option (BlockIndexEntry B)

namespace ExplicitProducer

/-- Where `enqueue` stands. -/
inductive Enqueue (τ : Type)
  /-- in `is_empty`, at the load of flag `i` of the block ahead -/
  | checking (element : τ) (i : Nat)
  /-- in `reset_empty`, at the store to flag `i` of the block ahead, which is
  the tail block now -/
  | reusing (element : τ) (i : Nat)
  /-- at the load of `headIndex` -/
  | measuring (element : τ)
  /-- at the test whether the block index is full -/
  | indexing (element : τ)
  /-- at `requisition_block` -/
  | requisitioning (element : τ)
  /-- about to write an entry of the block index -/
  | listing (element : τ)
  /-- at the store of `front` -/
  | fronting (element : τ)
  /-- about to construct the element -/
  | constructing (element : τ)
  /-- at the store of `tailIndex` -/
  | storing (element : τ)
  | returning (result : Bool)

/-- Where `dequeue_bulk` stands, once it has its indices. -/
inductive Dequeue (B τ : Type)
  /-- at the load of `front` -/
  | header (localBlockIndex : Nat)
  /-- at the read of a base -/
  | front (localBlockIndex : Nat) (localBlockIndexHead : Int)
  /-- at the read of a block -/
  | block (localBlockIndex : Nat) (indexIndex : Int) (index : Nat) (got : List τ)
  /-- about to move out an element and to destroy it -/
  | element (localBlockIndex : Nat) (indexIndex : Int) (block : B)
      (firstIndexInBlock index : Nat) (got : List τ)
  /-- in `set_many_empty`, at the store of flag `j` of those to be set -/
  | emptying (localBlockIndex : Nat) (indexIndex : Int) (block : B)
      (firstIndexInBlock index j : Nat) (got : List τ)
  /-- at its return -/
  | done (got : List τ)

end ExplicitProducer

/-- A producer and `T` threads that dequeue from its sub-queue. `headers` are
the block indices in the order they were made, from 1 on, and `blockIndex` is
the number of the one that is in use; it is the producer's, too, so
`pr_blockIndexSize` and `pr_blockIndexEntries` are what it has. Number 0 is the
null pointer; of `headers 0` there is only the size, the `pr_blockIndexSize`
that the first block index doubles. `owned` and `returned` are history: the
blocks the producer has got and what each call has returned. -/
structure ExplicitProducer (T : Nat) (B τ : Type) where
  base : SubQueue T τ
  tailBlock : Option B
  blockIndex : Nat
  headers : Nat → BlockIndexHeader B
  slotsUsed : Nat
  front : Int
  block : B → Block B τ
  enqueueing : Option (ExplicitProducer.Enqueue τ)
  dequeueing : Fin T → Option (ExplicitProducer.Dequeue B τ)
  owned : List B
  returned : List (Fin T × List τ)

namespace ExplicitProducer

variable {T : Nat} {B τ : Type} [DecidableEq B] (tr : Traits)

/-- The block index in use. -/
def header (s : ExplicitProducer T B τ) : BlockIndexHeader B := s.headers s.blockIndex

/-- `tailBlock->next`. -/
def nextBlock (s : ExplicitProducer T B τ) : Option B :=
  s.tailBlock.bind fun t => (s.block t).next

def writeHeader (s : ExplicitProducer T B τ) (h : BlockIndexHeader B) : ExplicitProducer T B τ :=
  { s with headers := Function.update s.headers s.blockIndex h }

def writeBlock (s : ExplicitProducer T B τ) (b : B) (x : Block B τ) : ExplicitProducer T B τ :=
  { s with block := Function.update s.block b x }

-- ---------------------------------------------------------------------------
-- The producer
-- ---------------------------------------------------------------------------

/-- The start of `enqueue`, which looks at nothing that others write. -/
def startEnqueue (s : ExplicitProducer T B τ) (element : τ) : Enqueue τ :=
  if s.base.counters.tailIndex % tr.blockSize = 0 then
    match s.tailBlock with
    | some _ => .checking element 0
    | none => .measuring element
  else .constructing element

/-- `new_block_index(pr_blockIndexSlotsUsed)`, its memory allocated. -/
def newBlockIndex (s : ExplicitProducer T B τ) : ExplicitProducer T B τ :=
  let copied :=
    if s.slotsUsed = 0 then []
    else copyRound s.header.entries s.header.size s.front s.header.size
      ((s.front - s.slotsUsed) % s.header.size)
  { s with
    blockIndex := s.blockIndex + 1
    headers := Function.update s.headers (s.blockIndex + 1)
      { size := 2 * s.header.size
        front := (s.slotsUsed : Int) - 1
        entries := fun i => if i < 0 then none else copied[i.toNat]?.join }
    front := copied.length }

/-- The new block `b`, which nobody else has yet, is reset and goes into the
ring, behind the tail. -/
def insertBlock (s : ExplicitProducer T B τ) (b : B) : ExplicitProducer T B τ :=
  let fresh : Block B τ := ⟨none, fun _ => none, fun _ => false⟩
  match s.tailBlock with
  | none => { s.writeBlock b { fresh with next := some b } with tailBlock := some b }
  | some t =>
    let s' := s.writeBlock b { fresh with next := (s.block t).next }
    { s'.writeBlock t { s'.block t with next := some b } with tailBlock := some b }

/-- One access of `enqueue`. `MAX_SUBQUEUE_SIZE` is the default, no limit. -/
def stepEnqueue (s : ExplicitProducer T B τ) : Enqueue τ →
    Option (ExplicitProducer T B τ × Enqueue τ)
  | .checking v i =>
    s.nextBlock.map fun n =>
      if (s.block n).emptyFlags i then
        if i + 1 = tr.blockSize then ({ s with tailBlock := some n }, .reusing v 0)
        else (s, .checking v (i + 1))
      else (s, .measuring v)
  | .reusing v i =>
    s.tailBlock.map fun t =>
      (s.writeBlock t { s.block t with
          emptyFlags := Function.update (s.block t).emptyFlags i false },
        if i + 1 = tr.blockSize then .listing v else .reusing v (i + 1))
  | .measuring v =>
    some (s,
      if circularLessThan s.base.counters.headIndex
        ((s.base.counters.tailIndex + tr.blockSize : Nat) : Int) then .indexing v
      else .returning false)
  | .indexing v =>
    if s.blockIndex = 0 ∨ s.slotsUsed = s.header.size then none else some (s, .requisitioning v)
  | .requisitioning _ => none
  | .listing v =>
    if s.blockIndex = 0 then none
    else s.tailBlock.map fun t =>
      (s.writeHeader { s.header with
        entries := Function.update s.header.entries s.front
          (some ⟨s.base.counters.tailIndex, t⟩) }, .fronting v)
  | .fronting v =>
    if s.blockIndex = 0 then none
    else some ({ s.writeHeader { s.header with front := s.front } with
      front := (s.front + 1) % s.header.size }, .constructing v)
  | .constructing v =>
    s.tailBlock.map fun t =>
      (s.writeBlock t { s.block t with
        elements := Function.update (s.block t).elements
          (s.base.counters.tailIndex % tr.blockSize) (some v) }, .storing v)
  | .storing v =>
    (s.base.step (.enqueue [v])).map fun base => ({ s with base := base }, .returning true)
  | .returning _ => none

-- ---------------------------------------------------------------------------
-- The consumers
-- ---------------------------------------------------------------------------

/-- The end of the indices that are in the block of `index` and have been
claimed. -/
def endIndex (firstIndex actualCount index : Nat) : Nat :=
  let endOfBlock := index - index % tr.blockSize + tr.blockSize
  if circularLessThan ((firstIndex + actualCount : Nat) : Int) endOfBlock then
    firstIndex + actualCount
  else endOfBlock

/-- One access of `dequeue_bulk`, once it has claimed `actualCount` indices
from `firstIndex` on. -/
def stepDequeue (s : ExplicitProducer T B τ) (firstIndex actualCount : Nat) :
    Option (Dequeue B τ) → Option (ExplicitProducer T B τ × Dequeue B τ)
  | none => some (s, .header s.blockIndex)
  | some (.header h) => if h = 0 then none else some (s, .front h (s.headers h).front)
  | some (.front h head) =>
    ((s.headers h).entries head).map fun entry =>
      let offset :=
        distance ((firstIndex - firstIndex % tr.blockSize : Nat) : Int) entry.base / tr.blockSize
      (s, .block h ((head + offset) % (s.headers h).size) firstIndex [])
  | some (.block h indexIndex index got) =>
    ((s.headers h).entries indexIndex).map fun entry =>
      (s, .element h indexIndex entry.block index index got)
  | some (.element h indexIndex b first index got) =>
    ((s.block b).elements (index % tr.blockSize)).map fun v =>
      (s.writeBlock b { s.block b with
          elements := Function.update (s.block b).elements (index % tr.blockSize) none },
        if index + 1 = endIndex tr firstIndex actualCount first then
          .emptying h indexIndex b first (index + 1) 0 (got ++ [v])
        else .element h indexIndex b first (index + 1) (got ++ [v]))
  | some (.emptying h indexIndex b first index j got) =>
    let i : Int := tr.blockSize - 1 - (first % tr.blockSize : Nat) - (index - first : Nat) + 1
    some (s.writeBlock b { s.block b with
        emptyFlags := Function.update (s.block b).emptyFlags (i + j).toNat true },
      if j + 1 = index - first then
        if index = firstIndex + actualCount then .done got
        else .block h ((indexIndex + 1) % (s.headers h).size) index got
      else .emptying h indexIndex b first index (j + 1) got)
  | some (.done _) => none

-- ---------------------------------------------------------------------------
-- The system
-- ---------------------------------------------------------------------------

inductive Label (T : Nat) (B τ : Type)
  | enqueue (element : τ)
  /-- the producer makes an access -/
  | produce
  /-- `new_block_index`, and whether it gets its memory -/
  | grow (allocated : Bool)
  /-- what `requisition_block` returns -/
  | requisition (newBlock : Option B)
  /-- `enqueue` returns -/
  | enqueued
  | call (i : Fin T) (max : Nat)
  | step (i : Fin T)
  | ret (i : Fin T)

/-- `dequeue_bulk` is called for one element at least. A new block is one that
the producer does not have. An index that is doubled still fits in memory
together with the blocks that fill it, hence the divisibility. -/
def step (s : ExplicitProducer T B τ) : Label T B τ → Option (ExplicitProducer T B τ)
  | .enqueue v =>
    match s.enqueueing with
    | none => some { s with enqueueing := some (startEnqueue tr s v) }
    | some _ => none
  | .produce =>
    match s.enqueueing with
    | some pc => (stepEnqueue tr s pc).map fun r => { r.1 with enqueueing := some r.2 }
    | none => none
  | .grow allocated =>
    match s.enqueueing with
    | some (.indexing v) =>
      if s.blockIndex = 0 ∨ s.slotsUsed = s.header.size then
        if allocated then
          if ((2 * s.header.size * tr.blockSize : Nat) : Int) ∣ indexRange then
            some { s.newBlockIndex with enqueueing := some (.requisitioning v) }
          else none
        else some { s with enqueueing := some (.returning false) }
      else none
    | _ => none
  | .requisition newBlock =>
    match s.enqueueing with
    | some (.requisitioning v) =>
      match newBlock with
      | none => some { s with enqueueing := some (.returning false) }
      | some b =>
        if b ∈ s.owned then none
        else some { s.insertBlock b with
          slotsUsed := s.slotsUsed + 1
          owned := b :: s.owned
          enqueueing := some (.listing v) }
    | _ => none
  | .enqueued =>
    match s.enqueueing with
    | some (.returning _) => some { s with enqueueing := none }
    | _ => none
  | .call i max =>
    if max = 0 then none
    else (s.base.step (.call i max)).map fun base => { s with base := base }
  | .step i =>
    match s.base.calls i with
    | some (_, .claimed firstIndex actualCount) =>
      (stepDequeue tr s firstIndex actualCount (s.dequeueing i)).map fun r =>
        { r.1 with dequeueing := Function.update r.1.dequeueing i (some r.2) }
    | _ => (s.base.step (.step i)).map fun base => { s with base := base }
  | .ret i =>
    match s.base.calls i, s.dequeueing i with
    | some (_, .claimed _ _), some (.done got) =>
      (s.base.step (.ret i)).map fun base =>
        { s with
          base := base
          dequeueing := Function.update s.dequeueing i none
          returned := s.returned ++ [(i, got)] }
    | some (_, .nothing), _ =>
      (s.base.step (.ret i)).map fun base =>
        { s with base := base, returned := s.returned ++ [(i, [])] }
    | _, _ => none

/-- The producer before its constructor asks for a block index. -/
def bare (T : Nat) (B τ : Type) : ExplicitProducer T B τ where
  base := (SubQueue.system T τ).init
  tailBlock := none
  blockIndex := 0
  headers := fun _ => ⟨tr.indexSize, -1, fun _ => none⟩
  slotsUsed := 0
  front := 0
  block := fun _ => ⟨none, fun _ => none, fun _ => false⟩
  enqueueing := none
  dequeueing := fun _ => none
  owned := []
  returned := []

/-- The producer constructed. The constructor does not look whether
`new_block_index(0)` has got its memory. -/
def init (allocated : Bool) (T : Nat) (B τ : Type) : ExplicitProducer T B τ :=
  if allocated then (bare tr T B τ).newBlockIndex else bare tr T B τ

def system (allocated : Bool) (T : Nat) (B τ : Type) [DecidableEq B] :
    System (ExplicitProducer T B τ) (Label T B τ) where
  init := init tr allocated T B τ
  step := step tr

/-- The counters are near when a call looks at them. -/
def near (s : ExplicitProducer T B τ) : Label T B τ → Bool
  | .step i => (s.base.calls i).all fun x => SubQueue.inWindow s.base.counters x.2
  | _ => true

/-- The runs in which the counters stay near. -/
def nearSystem (allocated : Bool) (T : Nat) (B τ : Type) [DecidableEq B] :
    System (ExplicitProducer T B τ) (Label T B τ) :=
  (system tr allocated T B τ).restrict near

-- ---------------------------------------------------------------------------
-- Steps
-- ---------------------------------------------------------------------------

variable {tr} {allocated : Bool} {s s' : ExplicitProducer T B τ}

/-- Every way a step can go. -/
inductive Move (tr : Traits) (s : ExplicitProducer T B τ) :
    Label T B τ → ExplicitProducer T B τ → Prop
  | enqueue (v : τ) (hIdle : s.enqueueing = none) :
      Move tr s (.enqueue v) { s with enqueueing := some (startEnqueue tr s v) }
  | produce (pc pc' : Enqueue τ) (t : ExplicitProducer T B τ) (hPc : s.enqueueing = some pc)
      (hAccess : stepEnqueue tr s pc = some (t, pc')) :
      Move tr s .produce { t with enqueueing := some pc' }
  | grow (v : τ) (hPc : s.enqueueing = some (.indexing v))
      (hFull : s.blockIndex = 0 ∨ s.slotsUsed = s.header.size)
      (hFits : ((2 * s.header.size * tr.blockSize : Nat) : Int) ∣ indexRange) :
      Move tr s (.grow true) { s.newBlockIndex with enqueueing := some (.requisitioning v) }
  | refuse (v : τ) (hPc : s.enqueueing = some (.indexing v))
      (hFull : s.blockIndex = 0 ∨ s.slotsUsed = s.header.size) :
      Move tr s (.grow false) { s with enqueueing := some (.returning false) }
  | insert (v : τ) (b : B) (hPc : s.enqueueing = some (.requisitioning v)) (hNew : b ∉ s.owned) :
      Move tr s (.requisition (some b))
        { s.insertBlock b with
          slotsUsed := s.slotsUsed + 1
          owned := b :: s.owned
          enqueueing := some (.listing v) }
  | deny (v : τ) (hPc : s.enqueueing = some (.requisitioning v)) :
      Move tr s (.requisition none) { s with enqueueing := some (.returning false) }
  | enqueued (ok : Bool) (hPc : s.enqueueing = some (.returning ok)) :
      Move tr s .enqueued { s with enqueueing := none }
  | call (i : Fin T) (max : Nat) (base : SubQueue T τ) (hMax : max ≠ 0)
      (hBase : s.base.step (.call i max) = some base) :
      Move tr s (.call i max) { s with base := base }
  | claim (i : Fin T) (base : SubQueue T τ)
      (hNot : ∀ max index actualCount, s.base.calls i ≠ some (max, .claimed index actualCount))
      (hBase : s.base.step (.step i) = some base) : Move tr s (.step i) { s with base := base }
  | step (i : Fin T) (max index actualCount : Nat) (t : ExplicitProducer T B τ) (r : Dequeue B τ)
      (hCall : s.base.calls i = some (max, .claimed index actualCount))
      (hAccess : stepDequeue tr s index actualCount (s.dequeueing i) = some (t, r)) :
      Move tr s (.step i) { t with dequeueing := Function.update t.dequeueing i (some r) }
  | ret (i : Fin T) (max index actualCount : Nat) (got : List τ) (base : SubQueue T τ)
      (hCall : s.base.calls i = some (max, .claimed index actualCount))
      (hDone : s.dequeueing i = some (.done got)) (hBase : s.base.step (.ret i) = some base) :
      Move tr s (.ret i)
        { s with
          base := base
          dequeueing := Function.update s.dequeueing i none
          returned := s.returned ++ [(i, got)] }
  | empty (i : Fin T) (max : Nat) (base : SubQueue T τ)
      (hCall : s.base.calls i = some (max, .nothing)) (hBase : s.base.step (.ret i) = some base) :
      Move tr s (.ret i) { s with base := base, returned := s.returned ++ [(i, [])] }

theorem step_cases {l : Label T B τ} (hStep : (nearSystem tr allocated T B τ).step s l = some s') :
    near s l = true ∧ Move tr s l s' := by
  obtain ⟨hNear, hStep⟩ := System.restrict_step.mp hStep
  refine ⟨hNear, ?_⟩
  replace hStep : ExplicitProducer.step tr s l = some s' := hStep
  cases l with
  | enqueue v =>
    simp only [ExplicitProducer.step] at hStep
    split at hStep
    · next hIdle =>
      cases hStep
      exact .enqueue v hIdle
    · cases hStep
  | produce =>
    simp only [ExplicitProducer.step] at hStep
    split at hStep
    · next pc hPc =>
      obtain ⟨⟨t, pc'⟩, hAccess, rfl⟩ := Option.map_eq_some_iff.mp hStep
      exact .produce pc pc' t hPc hAccess
    · cases hStep
  | grow allocated =>
    simp only [ExplicitProducer.step] at hStep
    split at hStep
    · next v hPc =>
      split at hStep
      · next hFull =>
        cases allocated with
        | true =>
          rw [if_pos rfl] at hStep
          split at hStep
          · next hFits =>
            cases hStep
            exact .grow v hPc hFull hFits
          · cases hStep
        | false =>
          cases hStep
          exact .refuse v hPc hFull
      · cases hStep
    · cases hStep
  | requisition newBlock =>
    simp only [ExplicitProducer.step] at hStep
    split at hStep
    · next v hPc =>
      cases newBlock with
      | none =>
        cases hStep
        exact .deny v hPc
      | some b =>
        dsimp only at hStep
        split at hStep
        · cases hStep
        · next hNew =>
          cases hStep
          exact .insert v b hPc hNew
    · cases hStep
  | enqueued =>
    simp only [ExplicitProducer.step] at hStep
    split at hStep
    · next ok hPc =>
      cases hStep
      exact .enqueued ok hPc
    · cases hStep
  | call i max =>
    simp only [ExplicitProducer.step] at hStep
    split at hStep
    · cases hStep
    · next hMax =>
      obtain ⟨base, hBase, rfl⟩ := Option.map_eq_some_iff.mp hStep
      exact .call i max base hMax hBase
  | step i =>
    simp only [ExplicitProducer.step] at hStep
    split at hStep
    · next max index actualCount hCall =>
      obtain ⟨⟨t, r⟩, hAccess, rfl⟩ := Option.map_eq_some_iff.mp hStep
      exact .step i max index actualCount t r hCall hAccess
    · next hNot =>
      obtain ⟨base, hBase, rfl⟩ := Option.map_eq_some_iff.mp hStep
      exact .claim i base (fun max index actualCount hCall => hNot max index actualCount hCall)
        hBase
  | ret i =>
    simp only [ExplicitProducer.step] at hStep
    split at hStep
    · next max index actualCount got hCall hDone =>
      obtain ⟨base, hBase, rfl⟩ := Option.map_eq_some_iff.mp hStep
      exact .ret i max index actualCount got base hCall hDone hBase
    · next max hCall =>
      obtain ⟨base, hBase, rfl⟩ := Option.map_eq_some_iff.mp hStep
      exact .empty i max base hCall hBase
    · cases hStep

/-- An access of the producer to what is its own. -/
theorem stepEnqueue_frame {pc pc' : Enqueue τ} {t : ExplicitProducer T B τ}
    (h : stepEnqueue tr s pc = some (t, pc')) :
    t.dequeueing = s.dequeueing ∧
      (t.base = s.base ∨ ∃ v, s.base.step (.enqueue [v]) = some t.base) := by
  cases pc with
  | checking v i =>
    obtain ⟨n, -, hEq⟩ := Option.map_eq_some_iff.mp h
    split at hEq
    · split at hEq <;> cases hEq <;> exact ⟨rfl, .inl rfl⟩
    · cases hEq
      exact ⟨rfl, .inl rfl⟩
  | reusing | constructing =>
    obtain ⟨x, -, hEq⟩ := Option.map_eq_some_iff.mp h
    cases hEq
    exact ⟨rfl, .inl rfl⟩
  | measuring =>
    cases h
    exact ⟨rfl, .inl rfl⟩
  | listing v =>
    simp only [stepEnqueue] at h
    split at h
    · cases h
    · obtain ⟨x, -, hEq⟩ := Option.map_eq_some_iff.mp h
      cases hEq
      exact ⟨rfl, .inl rfl⟩
  | indexing v | fronting v =>
    simp only [stepEnqueue] at h
    split at h
    · cases h
    · cases h
      exact ⟨rfl, .inl rfl⟩
  | storing v =>
    cases h
    exact ⟨rfl, .inr ⟨v, rfl⟩⟩
  | requisitioning | returning => cases h

theorem stepDequeue_frame {index actualCount : Nat} {r : Option (Dequeue B τ)} {r' : Dequeue B τ}
    {t : ExplicitProducer T B τ} (h : stepDequeue tr s index actualCount r = some (t, r')) :
    t.base = s.base ∧ t.dequeueing = s.dequeueing ∧ t.enqueueing = s.enqueueing := by
  cases r with
  | none =>
    cases h
    exact ⟨rfl, rfl, rfl⟩
  | some r =>
    cases r with
    | header hd =>
      simp only [stepDequeue] at h
      split at h
      · cases h
      · cases h
        exact ⟨rfl, rfl, rfl⟩
    | emptying =>
      cases h
      exact ⟨rfl, rfl, rfl⟩
    | front | block | element =>
      obtain ⟨x, -, hEq⟩ := Option.map_eq_some_iff.mp h
      cases hEq
      exact ⟨rfl, rfl, rfl⟩
    | done => cases h

theorem insertBlock_frame (b : B) :
    (s.insertBlock b).base = s.base ∧ (s.insertBlock b).dequeueing = s.dequeueing := by
  unfold insertBlock
  cases s.tailBlock with
  | none => exact ⟨rfl, rfl⟩
  | some t => exact ⟨rfl, rfl⟩

end ExplicitProducer

end ThreadPool.Model
