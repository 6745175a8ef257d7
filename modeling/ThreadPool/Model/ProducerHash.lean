import ThreadPool.Lib.Probing
import ThreadPool.Model.Process

/-!
# ThreadPool — the implicit producers

`get_or_add_implicit_producer`: every thread that enqueues without a token has
a producer of its own, which it looks up in a hash table by its thread id. A
table that gets full is followed by one of at least twice the size; the old
ones are kept, and what is found in one of them is put into the newest, too. A
step is one access to what the threads share.

Thread ids are the numbers of the threads, `none` is `invalid_thread_id`.
`MOODYCAMEL_CPP11_THREAD_LOCAL_SUPPORTED` is not defined, so entries are never
given up, and `recycle_or_create_producer` finds no implicit producer to use
again.

* `Pc`, `stepCall` — a call, one access at a time;
* `step` — the calls of all threads, `malloc` and the creation of a producer.

The entry of a key is found with a remainder where the code has a mask: it has
powers of two for capacities. What holds of every run is in
`Model/Producers.lean`.
-/

namespace ThreadPool.Model

open ThreadPool.Lib

/-- `ImplicitProducerHash` and its entries. -/
structure ImplicitProducerHash (T : Nat) where
  capacity : Nat
  key : Nat → Option (Fin T)
  value : Nat → Option Nat
  prev : Option Nat

namespace ProducerHash

/-- Where `get_or_add_implicit_producer` stands. -/
inductive Pc
  /-- at the first load of `implicitProducerHash` -/
  | entered
  /-- at the load of a key of table `hash` -/
  | probing (mainHash hash index : Nat)
  /-- at the load of a key of `mainHash`, where the id goes -/
  | inserting (mainHash index : Nat) (value : Option Nat)
  /-- at the exchange of the key -/
  | taking (mainHash index : Nat) (value : Option Nat)
  /-- at the write of the value -/
  | storing (mainHash index : Nat) (value : Option Nat)
  /-- at the `fetch_add` on `implicitProducerHashCount` -/
  | counting (mainHash : Nat)
  /-- at the `test_and_set` -/
  | testing (mainHash newCount : Nat)
  /-- at the second load of `implicitProducerHash` -/
  | locked (newCount : Nat)
  /-- at `malloc` -/
  | allocating (mainHash newCount : Nat)
  /-- at the store of `implicitProducerHash` -/
  | publishing (mainHash newCount newCapacity : Nat)
  /-- at the `clear` -/
  | unlocking (mainHash newCount : Nat)
  /-- at the `fetch_sub` after `malloc` has failed -/
  | refused
  /-- at the `clear` behind it -/
  | releasing
  /-- at `recycle_or_create_producer` -/
  | creating (mainHash newCount : Nat)
  /-- at the `fetch_sub` after it has failed -/
  | undoing
  /-- at the load of `implicitProducerHash` at the end of the loop -/
  | waiting (newCount : Nat)
  | returning (value : Option Nat)
  deriving DecidableEq

end ProducerHash

/-- The tables that have been made, in this order, and the calls of `T`
threads. `producers` and `returned` are history: the thread that each implicit
producer was created for, and what the calls have returned. -/
structure ProducerHash (T : Nat) where
  tables : Nat → ImplicitProducerHash T
  made : Nat
  implicitProducerHash : Nat
  implicitProducerHashCount : Nat
  implicitProducerHashResizeInProgress : Bool
  calls : Fin T → Option ProducerHash.Pc
  producers : List (Fin T)
  returned : List (Fin T × Option Nat)

namespace ProducerHash

variable {T : Nat} (hashThreadId : Fin T → Nat)

def capacity (s : ProducerHash T) (t : Nat) : Nat := (s.tables t).capacity

/-- Half of a table, and three quarters of it. -/
def half (s : ProducerHash T) (t : Nat) : Nat := s.capacity t / 2
def threeQuarters (s : ProducerHash T) (t : Nat) : Nat := s.capacity t / 2 + s.capacity t / 4

def setKey (s : ProducerHash T) (t x : Nat) (i : Fin T) : ProducerHash T :=
  { s with tables := Function.update s.tables t { s.tables t with
      key := Function.update (s.tables t).key x (some i) } }

def setValue (s : ProducerHash T) (t x : Nat) (value : Option Nat) : ProducerHash T :=
  { s with tables := Function.update s.tables t { s.tables t with
      value := Function.update (s.tables t).value x value } }

/-- `while (newCount >= (newCapacity >> 1)) newCapacity <<= 1`. -/
def grow (newCount : Nat) : Nat → Nat → Nat
  | 0, newCapacity => newCapacity
  | fuel + 1, newCapacity =>
    if newCapacity / 2 ≤ newCount then grow newCount fuel (2 * newCapacity) else newCapacity

/-- A table of `newCapacity` entries in front of `mainHash`. -/
def publish (s : ProducerHash T) (mainHash newCapacity : Nat) : ProducerHash T :=
  { s with
    tables := Function.update s.tables s.made
      ⟨newCapacity, fun _ => none, fun _ => none, some mainHash⟩
    made := s.made + 1
    implicitProducerHash := s.made }

/-- The end of the loop: whether the table is less than three quarters full. -/
def settle (s : ProducerHash T) (mainHash newCount : Nat) : Pc :=
  if newCount < s.threeQuarters mainHash then .creating mainHash newCount else .waiting newCount

/-- One access of a call of thread `i`. -/
def stepCall (s : ProducerHash T) (i : Fin T) : Pc → Option (ProducerHash T × Pc)
  | .entered =>
    some (s, .probing s.implicitProducerHash s.implicitProducerHash (hashThreadId i))
  | .probing mainHash hash index =>
    let index := index % s.capacity hash
    some (s,
      match (s.tables hash).key index with
      | some probedKey =>
        if probedKey = i then
          if hash = mainHash then .returning ((s.tables hash).value index)
          else .inserting mainHash (hashThreadId i) ((s.tables hash).value index)
        else .probing mainHash hash (index + 1)
      | none =>
        match (s.tables hash).prev with
        | some prev => .probing mainHash prev (hashThreadId i)
        | none => .counting mainHash)
  | .inserting mainHash index value =>
    let index := index % s.capacity mainHash
    some (s,
      if (s.tables mainHash).key index = none then .taking mainHash index value
      else .inserting mainHash (index + 1) value)
  | .taking mainHash index value =>
    if (s.tables mainHash).key index = none then
      some (s.setKey mainHash index i, .storing mainHash index value)
    else some (s, .inserting mainHash (index + 1) value)
  | .storing mainHash index value =>
    some (s.setValue mainHash index value, .returning value)
  | .counting mainHash =>
    some ({ s with implicitProducerHashCount := s.implicitProducerHashCount + 1 },
      .testing mainHash (s.implicitProducerHashCount + 1))
  | .testing mainHash newCount =>
    if s.half mainHash ≤ newCount ∧ s.implicitProducerHashResizeInProgress = false then
      some ({ s with implicitProducerHashResizeInProgress := true }, .locked newCount)
    else some (s, s.settle mainHash newCount)
  | .locked newCount =>
    some (s,
      if s.half s.implicitProducerHash ≤ newCount then .allocating s.implicitProducerHash newCount
      else .unlocking s.implicitProducerHash newCount)
  | .allocating _ _ => none
  | .publishing mainHash newCount newCapacity =>
    some (s.publish mainHash newCapacity, .unlocking s.made newCount)
  | .unlocking mainHash newCount =>
    some ({ s with implicitProducerHashResizeInProgress := false }, s.settle mainHash newCount)
  | .refused =>
    some ({ s with implicitProducerHashCount := s.implicitProducerHashCount - 1 }, .releasing)
  | .releasing =>
    some ({ s with implicitProducerHashResizeInProgress := false }, .returning none)
  | .creating _ _ => none
  | .undoing =>
    some ({ s with implicitProducerHashCount := s.implicitProducerHashCount - 1 },
      .returning none)
  | .waiting newCount => some (s, .testing s.implicitProducerHash newCount)
  | .returning _ => none

inductive Label (T : Nat)
  | call (i : Fin T)
  | step (i : Fin T)
  /-- `malloc`, and whether there was memory -/
  | allocate (i : Fin T) (ok : Bool)
  /-- `recycle_or_create_producer` -/
  | create (i : Fin T) (ok : Bool)
  | ret (i : Fin T)

def setCall (s : ProducerHash T) (i : Fin T) (pc : Option Pc) : ProducerHash T :=
  { s with calls := Function.update s.calls i pc }

def step (s : ProducerHash T) : Label T → Option (ProducerHash T)
  | .call i =>
    match s.calls i with
    | none => some (s.setCall i (some .entered))
    | some _ => none
  | .step i =>
    match s.calls i with
    | some pc => (stepCall hashThreadId s i pc).map fun r => r.1.setCall i (some r.2)
    | none => none
  | .allocate i ok =>
    match s.calls i with
    | some (.allocating mainHash newCount) =>
      some (s.setCall i (some (
        if ok then
          .publishing mainHash newCount (grow newCount (newCount + 1) (2 * s.capacity mainHash))
        else .refused)))
    | _ => none
  | .create i ok =>
    match s.calls i with
    | some (.creating mainHash _) =>
      if ok then
        some ({ s with producers := s.producers ++ [i] }.setCall i
          (some (.inserting mainHash (hashThreadId i) (some s.producers.length))))
      else some (s.setCall i (some .undoing))
    | _ => none
  | .ret i =>
    match s.calls i with
    | some (.returning value) =>
      some { s.setCall i none with returned := s.returned ++ [(i, value)] }
    | _ => none

/-- `populate_initial_implicit_producer_hash`. -/
def system (T : Nat) (hashThreadId : Fin T → Nat) (initialSize : Nat) :
    System (ProducerHash T) (Label T) where
  init :=
    { tables := fun _ => ⟨initialSize, fun _ => none, fun _ => none, none⟩
      made := 1
      implicitProducerHash := 0
      implicitProducerHashCount := 0
      implicitProducerHashResizeInProgress := false
      calls := fun _ => none
      producers := []
      returned := [] }
  step := step hashThreadId

end ProducerHash

end ThreadPool.Model
